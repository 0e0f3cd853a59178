import Xv6.Fs.Frame
import Xv6.Fs.Sane

/- How many blocks a transaction of the file system logs: the bitmap, the blocks of the inodes that
it changes, and the blocks that it writes entries or data to. -/
namespace Xv6.Fs

open Exec hiding panic
open Namecache CString

section Logs

/-- Since state `s` these blocks were logged, and no others. -/
def Logs (blocks : List Nat) (s s' : State) : Prop :=
  ∃ new, s'.logged = new ++ s.logged ∧ new ⊆ blocks

variable {blocks more : List Nat} {s s1 s' : State}

theorem Logs.of_eq (same : s'.logged = s.logged) : Logs blocks s s' := ⟨[], same, List.nil_subset _⟩

theorem Logs.refl (blocks : List Nat) (s : State) : Logs blocks s s := .of_eq rfl

theorem Logs.trans (first : Logs blocks s s1) (second : Logs blocks s1 s') : Logs blocks s s' := by
  obtain ⟨new, before, inside⟩ := first
  obtain ⟨last, behind, also⟩ := second
  refine ⟨last ++ new, by rw [behind, before, List.append_assoc], ?_⟩
  exact List.append_subset.mpr ⟨also, inside⟩

theorem Logs.mono (logs : Logs blocks s s') (inside : blocks ⊆ more) : Logs more s s' := by
  obtain ⟨new, grown, subset⟩ := logs
  exact ⟨new, grown, fun b member => inside (subset member)⟩

/-- The state in between is the same to the log. -/
theorem Logs.after (logs : Logs blocks s1 s') (same : s1.logged = s.logged) : Logs blocks s s' :=
  (Logs.of_eq same).trans logs

theorem Logs.then (logs : Logs blocks s s1) (same : s'.logged = s1.logged) : Logs blocks s s' :=
  logs.trans (.of_eq same)

/-- With fewer than BPB blocks there is one block of the bitmap. -/
theorem bblock_eq {b : Nat} (inside : b < FSSIZE) : bblock b = bblock 0 := by
  simp only [bblock, BPB, BSIZE, FSSIZE] at inside ⊢
  omega

end Logs

theorem logged_uncached : Uncached State.logged := ⟨fun _ _ => rfl⟩

section Freeing

variable {s : State} {i : Fin NINODE}

theorem bfree_logs {b : Nat} (inside : b < FSSIZE) :
    Spec Stops.all (bfree b) s fun _ s' => Logs [bblock 0] s s' ∧ s'.icache = s.icache ∧
      s'.blocks = s.blocks := by
  refine Spec.bind_get ?_
  split
  · exact Spec.panic trivial
  · refine Spec.modify ⟨⟨[bblock b], rfl, ?_⟩, rfl, rfl⟩
    rw [bblock_eq inside]
    exact List.Subset.refl _

/-- The loop over the direct blocks logs the bitmap only. -/
theorem freeDirect_logs (list : List Nat) (inside : ∀ n ∈ list, (s.icache i).din.addrs n < FSSIZE) :
    Spec Stops.all (freeDirect i list) s fun _ s' => Logs [bblock 0] s s' ∧
      (s'.icache i).inum = (s.icache i).inum ∧ s'.blocks = s.blocks ∧
      ∀ n, n ∉ list → (s'.icache i).din.addrs n = (s.icache i).din.addrs n := by
  induction list generalizing s with
  | nil => exact Spec.pure ⟨Logs.refl _ _, rfl, rfl, fun _ _ => rfl⟩
  | cons bn rest ih =>
    refine Spec.bind_get ?_
    refine Spec.through (fun _ s1 => Logs [bblock 0] s s1 ∧ (s1.icache i).inum = (s.icache i).inum ∧
      s1.blocks = s.blocks ∧
      ∀ n, (s1.icache i).din.addrs n = (s.icache i).din.addrs n ∨ n = bn ∧ (s1.icache i).din.addrs
      n = 0) ?_ ?_
    · refine Spec.when (fun _ => ?_) fun _ => ⟨Logs.refl _ _, rfl, rfl, fun _ => Or.inl rfl⟩
      refine Spec.bind (bfree_logs (inside bn List.mem_cons_self)) ?_
      rintro _ s1 ⟨logs, icache, blocks⟩
      rw [setDin_eq]
      refine Spec.modify ⟨logs.then rfl, ?_, blocks, fun n => ?_⟩
      · rw [putDin_self, icache]
      · rw [putDin_self, icache]
        grind
    · rintro _ s1 ⟨logs, inum, blocks, addrs⟩
      refine Spec.mono (ih fun n member => ?_) ?_
      · rcases addrs n with kept | ⟨_, zero⟩
        · grind
        · rw [zero]
          decide
      rintro _ s' ⟨logs', inum', blocks', kept'⟩
      refine ⟨logs.trans logs', inum'.trans inum, blocks'.trans blocks, fun n other => ?_⟩
      grind

theorem freeIndirect_logs {a : Block} (list : List Nat) (inside : ∀ j ∈ list, get32 a j < FSSIZE) :
    Spec Stops.all (freeIndirect a list) s fun _ s' => Logs [bblock 0] s s' ∧
      s'.icache = s.icache := by
  induction list generalizing s with
  | nil => exact Spec.pure ⟨Logs.refl _ _, rfl⟩
  | cons j rest ih =>
    refine Spec.through (fun _ s1 => Logs [bblock 0] s s1 ∧ s1.icache = s.icache) ?_ ?_
    · refine Spec.when (fun _ => ?_) fun _ => ⟨Logs.refl _ _, rfl⟩
      refine Spec.mono (bfree_logs (inside j List.mem_cons_self)) ?_
      grind
    · rintro _ s1 ⟨logs, icache⟩
      refine Spec.mono (ih fun k member => inside k (List.mem_cons_of_mem _ member)) ?_
      grind [Logs.trans]

/-- The blocks that are logged when inode `X` is freed. -/
abbrev freeing (X : Nat) : List Nat := [bblock 0, iblock X]

theorem iupdate_logs (s : State) (i : Fin NINODE) :
    Spec Stops.all (iupdate i) s fun _ s' => Logs (freeing (s.icache i).inum) s s' ∧
      s'.icache = s.icache :=
  Spec.modify ⟨⟨[iblock (s.icache i).inum], rfl, List.subset_cons_self _ _⟩, rfl⟩

theorem itrunc_logs (inside : ∀ n, blockAddr s.blocks (s.icache i).din n < FSSIZE) :
    Spec Stops.all (itrunc i) s fun _ s' => Logs (freeing (s.icache i).inum) s s' ∧
      (s'.icache i).inum = (s.icache i).inum := by
  have bitmap : [bblock 0] ⊆ freeing (s.icache i).inum := List.cons_subset_cons _
    (List.nil_subset _)
  refine Spec.bind (freeDirect_logs _ fun n member => ?_) ?_
  · have direct := inside n
    rwa [blockAddr_direct (List.mem_range.mp member)] at direct
  rintro _ s1 ⟨logs1, inum1, blocks1, kept⟩
  have single : (s1.icache i).din.addrs NDIRECT = (s.icache i).din.addrs NDIRECT := kept _ (by simp)
  refine Spec.bind_get (Spec.through (fun _ s2 => Logs (freeing (s.icache i).inum) s s2 ∧
    (s2.icache i).inum = (s.icache i).inum) ?_ ?_)
  · rw [single, blocks1]
    refine Spec.when (fun some => ?_) fun _ => ⟨logs1.mono bitmap, inum1⟩
    refine Spec.bind (freeIndirect_logs _ fun j member => ?_) ?_
    · have below : j < NINDIRECT := List.mem_range.mp member
      have entry := inside (NDIRECT + j)
      rw [blockAddr_entry (Nat.le_add_right _ _) (Nat.add_lt_add_left below _) some,
        Nat.add_sub_cancel_left] at entry
      exact entry
    rintro _ s2 ⟨logs2, icache2⟩
    have last := inside MAXFILE
    refine Spec.bind (bfree_logs last) ?_
    rintro _ s3 ⟨logs3, icache3, _⟩
    rw [setDin_eq]
    refine Spec.modify ⟨(((logs1.trans logs2).trans logs3).mono bitmap).then rfl, ?_⟩
    rw [putDin_self, icache3, icache2]
    exact inum1
  · rintro _ s2 ⟨logs2, inum2⟩
    rw [setDin_eq]
    refine Spec.bind_modify (Spec.mono (iupdate_logs _ i) ?_)
    rintro _ s' ⟨logs, icache⟩
    rw [putDin_self, inum2] at logs
    refine ⟨logs2.trans (logs.after rfl), ?_⟩
    rw [icache, putDin_self]
    exact inum2

theorem ifree_logs (inside : ∀ n, blockAddr s.blocks (s.icache i).din n < FSSIZE) :
    Spec Stops.all (ifree i) s fun _ s' => Logs (freeing (s.icache i).inum) s s' := by
  refine Spec.bind (itrunc_logs inside) ?_
  rintro _ s1 ⟨logs1, inum1⟩
  rw [setDin_eq]
  refine Spec.bind_modify (Spec.bind (iupdate_logs _ i) ?_)
  rintro _ s2 ⟨logs2, _⟩
  rw [putDin_self, inum1] at logs2
  exact Spec.modify ((logs1.trans (logs2.after rfl)).then rfl)

/-- The blocks of an inode in use are on the disk. -/
theorem Sane.inside {dirty : Fin NINODE → Bool} (sane : Sane dirty s) {X : Nat}
    (allocated : (s.dinodes X).type ≠ .free) (n : Nat) :
    blockAddr s.blocks (s.dinodes X) n < FSSIZE := by
  rw [← owner_of_allocated allocated]
  by_cases none : owner s.blocks s.dinodes (X, n) = 0
  · rw [none]
    decide
  · exact (sane.owned.inRange _ none).2

/-- `iput` logs the blocks of an inode that it frees, and nothing else. -/
theorem iput_logs (sane : Sane clean s) (used : 0 < (s.icache i).ref) (p : Fin NPROC) :
    Spec Stops.all (iput p i) s fun _ s' => Logs (freeing (s.icache i).inum) s s' ∧
      (¬ ((s.icache i).valid = true ∧ (s.icache i).din.nlink = 0 ∧ (s.icache i).ref = 1) →
        s'.logged = s.logged) := by
  refine Spec.bind (?_ : Spec _ _ _ fun _ s1 =>
    s1 = s.setSlot i { s.icache i with lock := some p }) ?_
  · refine Spec.bind_get ?_
    split
    · exact Spec.modify rfl
    · exact Spec.wait trivial
  rintro _ s1 rfl
  refine Spec.bind_get ?_
  rw [setSlot_self]
  refine Spec.through (fun _ s2 => Logs (freeing (s.icache i).inum) s s2 ∧
    (¬ ((s.icache i).valid = true ∧ (s.icache i).din.nlink = 0 ∧ (s.icache i).ref = 1) →
      s2.logged = s.logged)) ?_ ?_
  · refine Spec.when (fun last => ?_) fun _ => ⟨Logs.of_eq rfl, fun _ => rfl⟩
    have coherent := (sane.slots i).coherent used last.1 rfl
    have typed := (sane.slots i).typed used last.1
    refine Spec.mono (ifree_logs fun n => ?_) ?_
    · rw [setSlot_self]
      rw [coherent]
      exact sane.inside typed n
    · intro _ s2 logs
      rw [setSlot_self] at logs
      exact ⟨logs.after rfl, fun kept => (kept last).elim⟩
  · rintro _ s2 ⟨logs, silent⟩
    exact Spec.bind_modify (Spec.modify ⟨(logs.then rfl).then rfl, fun kept => silent kept⟩)

end Freeing

section Writing

variable {s : State} {i : Fin NINODE}

theorem balloc_logs (s : State) :
    Spec Stops.all balloc s fun b s' => Logs [bblock 0, b] s s' ∧ s'.icache = s.icache := by
  refine Spec.bind_get ?_
  split
  · rename_i b found
    have inside : b < FSSIZE := List.mem_range.mp (List.mem_of_find?_eq_some found)
    refine Spec.bind_modify (Spec.pure ⟨⟨[b, bblock b], rfl, ?_⟩, rfl⟩)
    rw [bblock_eq inside]
    exact (List.Perm.swap _ _ _).subset
  · exact Spec.panic trivial

theorem indirect_logs (s : State) (addr k : Nat) :
    Spec Stops.all (bmap.indirect addr k) s fun b s' => Logs [bblock 0, addr, b] s s' ∧
      s'.icache = s.icache := by
  refine Spec.bind_get ?_
  split
  · refine Spec.bind (balloc_logs s) ?_
    rintro b s1 ⟨logs, icache⟩
    refine Spec.bind_modify (Spec.pure ⟨(logs.mono ?_).trans ⟨[addr], rfl, ?_⟩, icache⟩)
    · simp
    · simp
  · exact Spec.pure ⟨Logs.refl _ _, rfl⟩

/-- `bmap` logs the bitmap, the indirect block and the block that it returns. -/
theorem bmap_logs (s : State) (i : Fin NINODE) (bn : Nat) :
    Spec Stops.all (bmap i bn) s fun addr s' => (∃ table, Logs [bblock 0, table, addr] s s') ∧
      (s'.icache i).inum = (s.icache i).inum := by
  refine Spec.bind_get ?_
  split
  · split
    · refine Spec.bind (balloc_logs s) ?_
      rintro addr s1 ⟨logs, icache⟩
      rw [setDin_eq]
      refine Spec.bind_modify (Spec.pure ⟨⟨addr, (logs.mono ?_).then rfl⟩, ?_⟩)
      · simp
      · rw [putDin_self, icache]
    · exact Spec.pure ⟨⟨0, Logs.refl _ _⟩, rfl⟩
  split
  · split
    · refine Spec.bind (balloc_logs s) ?_
      rintro table s1 ⟨logs, icache⟩
      rw [setDin_eq]
      refine Spec.bind_modify (Spec.mono (indirect_logs _ table _) ?_)
      rintro addr s2 ⟨logs2, icache2⟩
      refine ⟨⟨table, (logs.mono ?_).trans (logs2.after rfl)⟩, ?_⟩
      · simp
      · rw [icache2, putDin_self, icache]
    · refine Spec.mono (indirect_logs _ _ _) ?_
      grind
  · exact Spec.panic trivial

/-- A write over `n` blocks logs at most two blocks for each of them, beside the bitmap. -/
theorem writeiLoop_logs (fuel off n : Nat) (src : List UInt8)
    (fits : src ≠ [] → off % BSIZE + src.length ≤ BSIZE * n) :
    Spec Stops.all (writeiLoop i fuel off src) s fun _ s' =>
      (∃ data, data.length ≤ 2 * n ∧ Logs (bblock 0 :: data) s s') ∧ (s'.icache i).inum =
        (s.icache i).inum := by
  induction fuel generalizing off n src s with
  | zero => exact Spec.pure ⟨⟨[], Nat.zero_le _, Logs.refl _ _⟩, rfl⟩
  | succ fuel ih =>
    unfold writeiLoop
    split
    · exact Spec.pure ⟨⟨[], Nat.zero_le _, Logs.refl _ _⟩, rfl⟩
    rename_i some
    have whole := fits fun empty => some (by rw [empty]; rfl)
    cases n with
    | zero =>
      omega
    | succ n =>
      refine Spec.bind (bmap_logs s i _) ?_
      rintro addr s1 ⟨⟨table, logs1⟩, inum1⟩
      refine Spec.bind_modify (Spec.mono (ih _ n _ fun more => ?_) ?_)
      · -- The rest starts at a block boundary.
        have left := List.length_pos_iff.mpr more
        rw [List.length_drop] at left ⊢
        simp only [BSIZE] at whole left ⊢
        omega
      · rintro _ s' ⟨⟨data, few, logs⟩, inum⟩
        refine ⟨⟨table :: addr :: data, ?_, ?_⟩, inum.trans inum1⟩
        · simp only [List.length_cons]
          omega
        · refine (logs1.mono ?_).trans (Logs.trans ?_ (logs.mono ?_))
          · simp
          · exact ⟨[addr], rfl, by simp⟩
          · exact List.cons_subset_cons _ (List.subset_cons_of_subset _ (List.subset_cons_self _ _))

/-- `writei` also logs the block of the inode. -/
theorem writei_logs (off n : Nat) (src : List UInt8) (fits : off % BSIZE + src.length ≤ BSIZE * n) :
    Spec Stops.all (writei i src off) s fun _ s' =>
      ∃ data, data.length ≤ 2 * n ∧ Logs (data ++ freeing (s.icache i).inum) s s' := by
  have none : ∀ r : Int, Spec Stops.all (pure r) s fun _ s' =>
      ∃ data, data.length ≤ 2 * n ∧ Logs (data ++ freeing (s.icache i).inum) s s' :=
    fun r => Spec.pure ⟨[], Nat.zero_le _, Logs.refl _ _⟩
  refine Spec.bind_get ?_
  dsimp only
  split
  · grind
  split
  · exact none _
  split
  · exact none _
  refine Spec.bind (writeiLoop_logs _ off n src fun _ => fits) ?_
  rintro final s1 ⟨⟨data, few, logs1⟩, inum1⟩
  have bitmap : bblock 0 :: data ⊆ data ++ freeing (s.icache i).inum := by simp
  refine Spec.through (fun _ s2 => Logs (data ++ freeing (s.icache i).inum) s s2) ?_ ?_
  · refine Spec.when (fun _ => ?_) fun _ => logs1.mono bitmap
    rw [setDin_eq]
    refine Spec.bind_modify (Spec.mono (iupdate_logs _ i) ?_)
    rintro _ s2 ⟨logs2, _⟩
    rw [putDin_self, inum1] at logs2
    exact (logs1.mono bitmap).trans ((logs2.after rfl).mono (List.subset_append_right _ _))
  · exact fun _ s2 logs => Spec.pure ⟨data, few, logs⟩

end Writing

end Xv6.Fs
