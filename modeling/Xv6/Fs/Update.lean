import Xv6.Fs.Sane

/- The operations that change the disk: iupdate, ialloc and writei; and readi, which
does not. -/
namespace Xv6.Fs

open Exec hiding panic
open Ownership

section Write

variable {allowed : Stops} {dirty : Fin NINODE → Bool} {s s' : State} {i : Fin NINODE}
  {din : Dinode}

theorem Alike.refl (din : Dinode) : Alike din din := ⟨rfl, rfl, rfl⟩

theorem change_alike (change : Change) (din : Dinode) : Alike din (change.apply din) := by
  cases change <;> exact ⟨rfl, rfl, rfl⟩

theorem Alike.blockAddr {other : Dinode} (alike : Alike din other) (blocks : Nat → Block)
    (n : Nat) :
    blockAddr blocks other n = blockAddr blocks din n := by
  unfold Fs.blockAddr
  rw [alike.addrs]

theorem Alike.sized {other : Dinode} (alike : Alike din other) {blocks : Nat → Block}
    (sized : Sized blocks din) : Sized blocks other := by
  refine ⟨?_, ?_, fun n inside => ?_, ?_⟩
  · rw [alike.size]
    exact sized.bounded
  · rw [alike.size]
    exact sized.shaped.bound
  · rw [alike.size, alike.blockAddr]
    exact sized.shaped.data n inside
  · rw [alike.size, alike.addrs]
    exact sized.shaped.indirect

theorem Alike.owner {blocks : Nat → Block} {table : Nat → Dinode} {X : Nat}
    (alike : Alike (table X) din) :
    owner blocks (Function.update table X din) = owner blocks table := by
  grind [Fs.owner, Function.update_self, type, blockAddr, Function.update_of_ne]

/-- The copy in slot `i` and the disk inode are both `din` now. -/
structure Written (s s' : State) (i : Fin NINODE) (din : Dinode) : Prop where
  dinodes : s'.dinodes = Function.update s.dinodes (s.icache i).inum din
  others : ∀ j, j ≠ i → s'.icache j = s.icache j
  slot : s'.icache i = { s.icache i with din := din }
  namecache : s'.namecache = s.namecache
  ftable : s'.ftable = s.ftable
  procs : s'.procs = s.procs
  devsw : s'.devsw = s.devsw
  pipes : s'.pipes = s.pipes

/-- A write of the disk inode leaves the other slots right, and slot `i` clean. -/
theorem Written.sane (sane : Sane dirty s) (written : Written s s' i din)
    (used : 0 < (s.icache i).ref) (valid : (s.icache i).valid = true) (allocated : din.type ≠ .free)
    (owned : Owned s'.blocks s'.dinodes s'.bitmap) (sized : Sized s'.blocks din)
    (foreign : ∀ j, j ≠ (s.icache i).inum → (s.dinodes j).type ≠ .free →
      Intact s.blocks s'.blocks (s.dinodes j)) : Sane (Function.update dirty i false) s' := by
  have here : s'.dinodes (s.icache i).inum = din := by rw [written.dinodes, Function.update_self]
  have there : ∀ j, j ≠ (s.icache i).inum → s'.dinodes j = s.dinodes j := by
    intro j apart
    rw [written.dinodes, Function.update_of_ne apart]
  have slot := sane.slots i
  refine ⟨fun j => ?_, owned, fun j typed => ?_, fun j typed => ?_⟩
  · by_cases same : j = i
    · subst same
      rw [Function.update_self, written.slot]
      refine ⟨slot.device, fun used k apart => ?_, fun _ _ _ => here.symm, ?_, fun _ _ => ?_, ?_,
        slot.locked⟩
      · rw [written.others k apart]
        exact slot.alone used k apart
      · exact fun impossible => Bool.noConfusion impossible
      · rw [here]
        exact allocated
      · exact fun impossible => Bool.noConfusion impossible
    · rw [Function.update_of_ne same, written.others j same]
      have other := sane.slots j
      have apart : 0 < (s.icache j).ref → (s.icache j).inum ≠ (s.icache i).inum :=
        fun used' => slot.alone used j same used'
      refine ⟨other.device, fun used' k different => ?_, fun used' valid' clean => ?_,
        fun taken => ?_, fun used' valid' => ?_, other.held, other.locked⟩
      · by_cases self : k = i
        · subst self
          rw [written.slot]
          exact other.alone used' k different
        · rw [written.others k self]
          exact other.alone used' k different
      · grind [SlotOk.coherent]
      · rw [there _ (apart (other.locked (other.held taken)).1)]
        exact other.ahead taken
      · grind [SlotOk.typed]
  · by_cases same : j = (s.icache i).inum
    · grind
    · rw [there j same] at typed ⊢
      have before := sane.sized j typed
      exact ⟨before.bounded, (foreign j same typed).shaped before.shaped⟩
  · by_cases same : j = (s.icache i).inum
    · subst same
      exact sane.numbered _ (slot.typed used valid)
    · rw [there j same] at typed
      exact sane.numbered j typed

/-- The state after the inode in slot `i` was changed to `din` and written to the disk. -/
def State.commit (s : State) (i : Fin NINODE) (din : Dinode) : State :=
  { s.putDin i din with
    dinodes := Function.update s.dinodes (s.icache i).inum din
    logged := iblock (s.icache i).inum :: s.logged }

theorem iupdate_eq (i : Fin NINODE) :
    iupdate i = Exec.modify fun s => s.commit i (s.icache i).din := by
  unfold iupdate
  simp only [State.commit, State.putDin, Function.update_eq_self]

theorem putDin_commit (s : State) (i : Fin NINODE) (din : Dinode) :
    (s.putDin i din).commit i ((s.putDin i din).icache i).din = s.commit i din := by
  simp only [State.commit, putDin_self]
  simp only [State.putDin, Function.update_self, Function.update_idem]

theorem commit_written (s : State) (i : Fin NINODE) (din : Dinode) :
    Written s (s.commit i din) i din :=
  ⟨rfl, fun _ apart => Function.update_of_ne apart _ _, Function.update_self _ _ _, rfl, rfl,
    rfl, rfl, rfl⟩

theorem Sane.commit (sane : Sane dirty s) (used : 0 < (s.icache i).ref)
    (valid : (s.icache i).valid = true) (alike : Alike (s.dinodes (s.icache i).inum) din) :
    Sane (Function.update dirty i false) (s.commit i din) := by
  have typed := (sane.slots i).typed used valid
  refine (commit_written s i din).sane sane used valid ?_ ?_ ?_ ?_
  · rwa [alike.type]
  · change Exact nmeta FSSIZE (owner s.blocks (Function.update s.dinodes _ din)) s.bitmap
    rw [alike.owner]
    exact sane.owned
  · exact alike.sized (sane.sized _ typed)
  · exact fun j _ _ => Intact.refl _ _

/-- A change of fields that say nothing about the content, before it is written. -/
theorem Sane.putDin (sane : Sane dirty s) (taken : (s.icache i).lock ≠ none)
    (alike : Alike (s.dinodes (s.icache i).inum) din) :
    Sane (Function.update dirty i true) (s.putDin i din) := by
  have slot := sane.slots i
  refine sane.setSlot ⟨slot.device, slot.alone, fun _ _ impossible => ?_, fun _ => alike,
    slot.typed, fun _ => taken, slot.locked⟩
  exact Bool.noConfusion impossible

end Write

section Alloc

variable {allowed : Stops} {dirty : Fin NINODE → Bool} {s : State} {p : Fin NPROC}

/-- A free inode became a new one. -/
def State.allocInode (s : State) (X : Nat) (din : Dinode) : State :=
  { s with dinodes := Function.update s.dinodes X din, logged := iblock X :: s.logged }

theorem shaped_empty {blocks : Nat → Block} {din : Dinode} (none : din.addrs = fun _ => 0) :
    Shaped blocks din 0 := by
  refine ⟨Nat.zero_le _, fun n _ => ?_, ?_⟩
  · have zero : blockAddr blocks din n = 0 := by
      unfold blockAddr
      simp only [none, ↓reduceIte, ite_self]
    simp only [zero, ne_eq, not_true_eq_false, Nat.not_lt_zero]
  · simp only [none, ne_eq, not_true_eq_false, Nat.not_lt_zero]

theorem Sane.allocInode (sane : Sane dirty s) {X : Nat} {din : Dinode}
    (free : (s.dinodes X).type = .free) (positive : 0 < X) (below : X < NINODES)
    (empty : din.size = 0) (none : din.addrs = fun _ => 0) :
    Sane dirty (s.allocInode X din) := by
  have here : (s.allocInode X din).dinodes X = din := Function.update_self _ _ _
  have there : ∀ j, j ≠ X → (s.allocInode X din).dinodes j = s.dinodes j :=
    fun j apart => Function.update_of_ne apart _ _
  -- A slot whose copy is valid holds an inode in use, so not this one.
  have apart : ∀ j, (s.dinodes j).type ≠ .free → j ≠ X := by grind
  refine ⟨fun j => ?_, ?_, fun j typed => ?_, fun j typed => ?_⟩
  · have slot := sane.slots j
    change SlotOk (s.allocInode X din) (dirty j) j (s.icache j)
    refine ⟨slot.device, slot.alone, fun used valid clean => ?_, fun taken => ?_,
      fun used valid => ?_, slot.held, slot.locked⟩
    · grind [SlotOk.typed, SlotOk.coherent]
    · have use := slot.locked (slot.held taken)
      rw [there _ (apart _ (slot.typed use.1 use.2))]
      exact slot.ahead taken
    · grind [SlotOk.typed]
  · have same : owner s.blocks (s.allocInode X din).dinodes = owner s.blocks s.dinodes := by
      funext key
      unfold owner
      by_cases new : key.1 = X
      · rw [new, here, free, if_pos rfl]
        have zero : blockAddr s.blocks din key.2 = 0 := by
          unfold blockAddr
          simp only [none, ↓reduceIte, ite_self]
        rw [zero, ite_self]
      · rw [there _ new]
    change Exact nmeta FSSIZE (owner s.blocks _) s.bitmap
    rw [same]
    exact sane.owned
  · by_cases new : j = X
    · subst new
      rw [here]
      refine ⟨by rw [empty]; exact Nat.zero_le _, ?_⟩
      rw [empty]
      exact shaped_empty none
    · rw [there j new] at typed ⊢
      exact sane.sized j typed
  · by_cases new : j = X
    · subst new
      exact ⟨positive, below⟩
    · rw [there j new] at typed
      exact sane.numbered j typed

theorem ialloc_spec (lenient : Lenient allowed)
    (full : (∀ j, 0 < (s.icache j).ref) → allowed "iget: no inodes") (sane : Sane dirty s)
    (type : Itype) :
    Spec allowed (ialloc p type) s fun i s' => ∃ X,
      (List.range' 1 (NINODES - 1)).find? (fun inum => (s.dinodes inum).type = .free) = some X ∧
      0 < X ∧ X < NINODES ∧ (s.dinodes X).type = .free ∧ Sane dirty s' ∧
      Got (s.allocInode X (newDinode type (s.procs p).uid (s.procs p).gid)) s' i X := by
  refine Spec.bind_get ?_
  split
  · rename_i X found
    have free := List.find?_some found
    simp only [decide_eq_true_eq] at free
    have member := List.mem_of_find?_eq_some found
    rw [List.mem_range'_1] at member
    refine Spec.bind_modify ?_
    have kept : Sane dirty (s.allocInode X (newDinode type (s.procs p).uid (s.procs p).gid)) :=
      sane.allocInode free (by omega) (by omega) rfl rfl
    have crowded : (∀ j, 0 < ((s.allocInode X
      (newDinode type (s.procs p).uid (s.procs p).gid)).icache j).ref) →
        allowed "iget: no inodes" := full
    refine Spec.mono (iget_spec crowded kept X) ?_
    grind
  · exact Spec.panic (lenient _ (by decide))

end Alloc

section Content

variable {allowed : Stops} {dirty : Fin NINODE → Bool} {s : State} {i : Fin NINODE}

/-- `readi` changes nothing; what it reads from a file or a directory is its content, up to
its end. -/
theorem readi_clamped (sane : Sane dirty s) (used : 0 < (s.icache i).ref)
    (valid : (s.icache i).valid = true) (clean : dirty i = false) (off n : Nat) :
    Spec allowed (readi i off n) s fun result s' => s' = s ∧
      ((s.icache i).din.type ≠ .dev → off ≤ (s.icache i).din.size → off + n < 2 ^ 32 →
        result = (Int.ofNat (min n ((s.icache i).din.size - off)),
          contentOf s.blocks (s.icache i).din off (min n ((s.icache i).din.size - off)))) := by
  have flight := sane.flight used valid clean
  refine Spec.bind_get ?_
  dsimp only
  split
  · grind [Spec.pure]
  · split
    · refine Spec.pure ⟨rfl, fun _ inside fits => ?_⟩
      omega
    · have count : (if (s.icache i).din.size < off + n then (s.icache i).din.size - off else n) =
          min n ((s.icache i).din.size - off) := by
        split <;> omega
      have fits : blocksOf (off + min n ((s.icache i).din.size - off)) ≤ blocksOf
        (s.icache i).din.size := by
        simp only [blocksOf, BSIZE]
        omega
      rw [count]
      refine Spec.bind (readiLoop_spec (Nat.le_refl _) flight fits) ?_
      rintro bytes after ⟨read, rfl⟩
      refine Spec.pure ⟨rfl, fun _ _ _ => ?_⟩
      rw [read]
      rfl

theorem readi_spec (sane : Sane dirty s) (used : 0 < (s.icache i).ref)
    (valid : (s.icache i).valid = true) (clean : dirty i = false) (off n : Nat) :
    Spec allowed (readi i off n) s fun result s' => s' = s ∧
      ((s.icache i).din.type ≠ .dev → off + n ≤ (s.icache i).din.size →
        result = (Int.ofNat n, contentOf s.blocks (s.icache i).din off n)) := by
  refine Spec.mono (readi_clamped sane used valid clean off n) ?_
  rintro result after ⟨same, read⟩
  refine ⟨same, fun plain inside => ?_⟩
  have coherent := (sane.slots i).coherent used valid clean
  have bounded := (sane.sized _ ((sane.slots i).typed used valid)).bounded
  rw [← coherent] at bounded
  have small : MAXFILE * BSIZE < 2 ^ 32 := by decide
  rw [read plain (by omega) (by omega), Nat.min_eq_left (by omega)]

/-- The bytes `src` are in the inode of slot `i` at `off`, which grew to hold them. -/
structure Stored (s s' : State) (i : Fin NINODE) (off : Nat) (src : List UInt8) : Prop where
  written : Written s s' i (s'.icache i).din
  din : (s'.icache i).din = { (s.icache i).din with
    addrs := (s'.icache i).din.addrs
    size := max (s.icache i).din.size (off + src.length) }
  addr : ∀ n, blockAddr s.blocks (s.icache i).din n ≠ 0 →
    blockAddr s'.blocks (s'.icache i).din n = blockAddr s.blocks (s.icache i).din n
  foreign : ∀ j, j ≠ (s.icache i).inum → (s.dinodes j).type ≠ .free →
    Intact s.blocks s'.blocks (s.dinodes j)
  inside : ∀ k, off ≤ k → k < off + src.length →
    byteAt s'.blocks (s'.icache i).din k = src.getD (k - off) 0
  outside : ∀ k, k < off ∨ off + src.length ≤ k → k < (s.icache i).din.size →
    byteAt s'.blocks (s'.icache i).din k = byteAt s.blocks (s.icache i).din k

/-- The loop of `writei` has run; the size is set if the file grew. -/
theorem Wrote.stored (sane : Sane dirty s) (used : 0 < (s.icache i).ref)
    (valid : (s.icache i).valid = true) (clean : dirty i = false) {s' : State} {off : Nat}
    {src : List UInt8} (start : off ≤ (s.icache i).din.size)
    (fits : off + src.length ≤ MAXFILE * BSIZE) (wrote : Wrote s s' i off src)
    (flight : Flight s' i (max (blocksOf (s.icache i).din.size) (blocksOf (off + src.length))))
    (final : State)
    (ends : final = if 0 < src.length ∧ (s.icache i).din.size < off + src.length then
      s'.commit i { (s'.icache i).din with size := off + src.length } else s') :
    Sane dirty final ∧ Stored s final i off src := by
  have slot := sane.slots i
  have typed := slot.typed used valid
  have coherent := slot.coherent used valid clean
  have sized := sane.sized _ typed
  rw [← coherent] at sized
  have same := wrote.same
  have inum := same.inum
  have din : (s'.icache i).din = { (s.icache i).din with addrs := (s'.icache i).din.addrs } := by
    rw [same.slot]
  have still : Function.update dirty i false = dirty := by rw [← clean, Function.update_eq_self]
  split at ends
  · have reach : max (blocksOf (s.icache i).din.size) (blocksOf (off + src.length)) =
        blocksOf (off + src.length) := by
      simp only [blocksOf, BSIZE]
      omega
    rw [reach] at flight
    have written : Written s final i { (s'.icache i).din with size := off + src.length } := by
      rw [ends]
      have commit := commit_written s' i { (s'.icache i).din with size := off + src.length }
      refine ⟨?_, fun j apart => ?_, ?_, same.namecache, same.ftable, same.procs, same.devsw,
        same.pipes⟩
      · rw [commit.dinodes, same.dinodes, inum]
      · rw [commit.others j apart, same.others j apart]
      · rw [commit.slot, same.slot]
    have slotDin : (final.icache i).din = { (s'.icache i).din with size := off + src.length } := by
      rw [written.slot]
    have blocks : final.blocks = s'.blocks := by
      rw [ends]
      rfl
    have bytes : ∀ k, byteAt final.blocks (final.icache i).din k = byteAt s'.blocks
      (s'.icache i).din k := by
      intro k
      rw [slotDin, blocks]
      rfl
    constructor
    · rw [← still]
      refine written.sane sane used valid flight.allocated ?_ ⟨fits, ?_⟩ ?_
      · rw [written.dinodes, blocks, Owned]
        have bitmap : final.bitmap = s'.bitmap := by
          rw [ends]
          rfl
        have table : owner s'.blocks (Function.update s.dinodes (s.icache i).inum
            { (s'.icache i).din with size := off + src.length }) = owner s'.blocks
            (Fs.tableOf s' i) := by
          have twice : Function.update s.dinodes (s.icache i).inum
              { (s'.icache i).din with size := off + src.length } =
              Function.update (Fs.tableOf s' i) (s'.icache i).inum
                { (s'.icache i).din with size := off + src.length } := by
            rw [Fs.tableOf, Function.update_idem, same.dinodes, inum]
          rw [twice]
          funext key
          unfold owner
          by_cases here : key.1 = (s'.icache i).inum
          · rw [here, Function.update_self, tableOf_self]
            rfl
          · rw [Function.update_of_ne here]
        rw [table, bitmap]
        exact flight.owned
      · rw [blocks]
        exact ⟨flight.shaped.bound, flight.shaped.data, flight.shaped.indirect⟩
      · grind [foreign]
    · refine ⟨?_, ?_, fun n some => ?_, fun j apart allocated => ?_, fun k lower upper => ?_,
        fun k outside below => ?_⟩
      · rw [slotDin]
        exact written
      · rw [slotDin, din, Nat.max_eq_right (by omega)]
      · rw [slotDin, blocks, ← wrote.addr n some]
        rfl
      · rw [blocks]
        exact wrote.foreign j apart allocated
      · rw [bytes]
        exact wrote.inside k lower upper
      · rw [bytes]
        have block := div_lt_blocksOf below
        have bound := sized.shaped.bound
        exact wrote.outside k outside (by omega) ((sized.shaped.data _ (by omega)).mpr block)
  · subst ends
    have had : ∀ k, off ≤ k → k < off + src.length →
        blockAddr s.blocks (s.icache i).din (k / BSIZE) ≠ 0 := by
      intro k lower upper
      have below : k < (s.icache i).din.size := by omega
      have block := div_lt_blocksOf below
      have bound := sized.shaped.bound
      exact (sized.shaped.data _ (by omega)).mpr block
    obtain ⟨icache, bitmap⟩ := wrote.idle had
    have slotDin : (final.icache i).din = s.dinodes (s.icache i).inum := by rw [icache, coherent]
    have written : Written s final i (final.icache i).din := by
      refine ⟨?_, same.others, by rw [icache], same.namecache, same.ftable, same.procs, same.devsw,
        same.pipes⟩
      rw [same.dinodes, slotDin, Function.update_eq_self]
    have keeps : max (blocksOf (s.icache i).din.size) (blocksOf (off + src.length)) =
        blocksOf (s.icache i).din.size := by
      simp only [blocksOf, BSIZE]
      omega
    rw [keeps] at flight
    constructor
    · rw [← still]
      refine written.sane sane used valid flight.allocated ?_ ⟨?_, ?_⟩ wrote.foreign
      · have table : Fs.tableOf final i = final.dinodes := by
          rw [Fs.tableOf, slotDin, inum, ← same.dinodes, Function.update_eq_self]
        have owned := flight.owned
        rwa [table] at owned
      · rw [icache]
        exact sized.bounded
      · have shaped := flight.shaped
        rwa [← icache] at shaped
    · refine ⟨written, ?_, wrote.addr, wrote.foreign, wrote.inside, fun k outside below => ?_⟩
      · rw [icache, Nat.max_eq_left (by omega)]
      · have block := div_lt_blocksOf below
        have bound := sized.shaped.bound
        exact wrote.outside k outside (by omega) ((sized.shaped.data _ (by omega)).mpr block)

/-- `writei` fails and changes nothing, or stores the bytes. -/
theorem writei_spec (full : allowed "balloc: out of blocks") (sane : Sane dirty s)
    (used : 0 < (s.icache i).ref) (valid : (s.icache i).valid = true) (clean : dirty i = false)
    (src : List UInt8) (off : Nat) :
    Spec allowed (writei i src off) s fun result s' => Sane dirty s' ∧
      (s' = s ∧ ((s.icache i).din.type = .dev ∨ result = -1) ∨
        (s.icache i).din.type ≠ .dev ∧ result = Int.ofNat src.length ∧
        off ≤ (s.icache i).din.size ∧ Stored s s' i off src) := by
  have flight := sane.flight used valid clean
  refine Spec.bind_get ?_
  dsimp only
  split
  · grind [Spec.pure]
  · rename_i regular
    split
    · exact Spec.pure ⟨sane, Or.inl ⟨rfl, Or.inr rfl⟩⟩
    rename_i inside
    rw [not_or, Nat.not_lt, Nat.not_lt] at inside
    split
    · exact Spec.pure ⟨sane, Or.inl ⟨rfl, Or.inr rfl⟩⟩
    have start : blocksOf off ≤ blocksOf (s.icache i).din.size := by
      simp only [blocksOf, BSIZE]
      omega
    refine Spec.bind (writeiLoop_spec full (Nat.le_refl _) flight start (by omega)) ?_
    rintro final middle ⟨rfl, wrote, reached⟩
    have stored := wrote.stored sane used valid clean inside.1 (by omega) reached _ rfl
    refine Spec.through (fun _ s' => s' =
      if 0 < src.length ∧ (s.icache i).din.size < off + src.length then
        middle.commit i { (middle.icache i).din with size := off + src.length }
      else middle) ?_ ?_
    · refine Spec.when (fun grows => ?_) (fun stays => ?_)
      · rw [if_pos grows, setDin_eq, iupdate_eq]
        refine Spec.bind_modify (Spec.modify ?_)
        exact putDin_commit _ _ _
      · rw [if_neg stays]
    · grind [Spec.pure]

end Content

end Xv6.Fs
