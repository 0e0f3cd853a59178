import Xv6.Fs.Content

/- itrunc and the freeing part of iput: every block of the inode goes back to the
bitmap, each once. While the loops run, the owners are those that are still to be
freed, which no table of inodes holds. -/
namespace Xv6.Fs

open Exec hiding panic
open Ownership

section Loops

variable {allowed : Stops} {s : State} {i : Fin NINODE} {own : Nat × Nat → Nat} {X : Nat}

/-- Freeing a block that has an owner. -/
theorem bfree_spec (exact : Exact nmeta FSSIZE own s.bitmap) {key : Nat × Nat}
    (owned : own key ≠ 0) :
    Spec allowed (bfree (own key)) s fun _ s' =>
      s' = { s with bitmap := s'.bitmap, logged := s'.logged } ∧
      Exact nmeta FSSIZE (Function.update own key 0) s'.bitmap := by
  refine Spec.bind_get ?_
  rw [if_neg (by rw [exact.marked owned]; decide)]
  exact Spec.modify ⟨rfl, exact.release owned⟩

theorem update_zero {key : Nat × Nat} (none : own key = 0) : Function.update own key 0 = own := by
  rw [← none, Function.update_eq_self]

/-- The loop over an indirect block `a` frees what its entries name. -/
theorem freeIndirect_spec {a : Block} {list : List Nat} (exact : Exact nmeta FSSIZE own s.bitmap)
    (entries : ∀ j ∈ list, get32 a j = own (X, NDIRECT + j)) (distinct : list.Nodup) :
    Spec allowed (freeIndirect a list) s fun _ s' =>
      s' = { s with bitmap := s'.bitmap, logged := s'.logged } ∧
      Exact nmeta FSSIZE (cleared own (list.map fun j => (X, NDIRECT + j))) s'.bitmap := by
  induction list generalizing s own with
  | nil =>
    exact Spec.pure ⟨rfl, exact⟩
  | cons j rest ih =>
    rw [List.map_cons, cleared_cons]
    have entry := entries j List.mem_cons_self
    have absent := (List.nodup_cons.mp distinct).1
    have later : ∀ k ∈ rest, get32 a k = Function.update own (X, NDIRECT + j) 0 (X, NDIRECT + k) :=
      by
      intro k member
      rw [Function.update_of_ne, entries k (List.mem_cons_of_mem _ member)]
      intro equal
      have same : k = j := by
        have last := (Prod.mk.inj equal).2
        omega
      exact absent (same ▸ member)
    refine Spec.through (fun _ s' => s' = { s with bitmap := s'.bitmap, logged := s'.logged } ∧
      Exact nmeta FSSIZE (Function.update own (X, NDIRECT + j) 0) s'.bitmap) ?_ ?_
    · refine Spec.when (fun some => ?_) (fun none => ?_)
      · rw [entry] at some ⊢
        exact bfree_spec exact some
      · rw [entry, not_not] at none
        rw [update_zero none]
        exact ⟨rfl, exact⟩
    · rintro _ middle ⟨same, exact'⟩
      refine Spec.mono (ih exact' later (List.nodup_cons.mp distinct).2) ?_
      rintro _ after ⟨same', last⟩
      refine ⟨?_, last⟩
      rw [same', same]

/-- The loop over the direct blocks frees them. -/
theorem freeDirect_spec {list : List Nat} (exact : Exact nmeta FSSIZE own s.bitmap)
    (entries : ∀ n ∈ list, (s.icache i).din.addrs n = own (X, n)) (distinct : list.Nodup) :
    Spec allowed (freeDirect i list) s fun _ s' => SameButBlocks s s' i ∧ s'.blocks = s.blocks ∧
      (∀ n, n ∉ list → (s'.icache i).din.addrs n = (s.icache i).din.addrs n) ∧
      Exact nmeta FSSIZE (cleared own (list.map fun n => (X, n))) s'.bitmap := by
  induction list generalizing s own with
  | nil =>
    exact Spec.pure ⟨SameButBlocks.refl s i, rfl, fun _ _ => rfl, exact⟩
  | cons n rest ih =>
    rw [List.map_cons, cleared_cons]
    have entry := entries n List.mem_cons_self
    have absent := (List.nodup_cons.mp distinct).1
    refine Spec.bind_get ?_
    refine Spec.through (fun _ s' => SameButBlocks s s' i ∧ s'.blocks = s.blocks ∧
      (∀ m, m ≠ n → (s'.icache i).din.addrs m = (s.icache i).din.addrs m) ∧
      Exact nmeta FSSIZE (Function.update own (X, n) 0) s'.bitmap) ?_ ?_
    · refine Spec.when (fun some => ?_) (fun none => ?_)
      · rw [entry] at some ⊢
        refine Spec.bind (bfree_spec exact some) ?_
        rintro _ middle ⟨same, exact'⟩
        rw [setDin_eq]
        refine Spec.modify ⟨?_, ?_, ?_, exact'⟩
        · rw [same]
          have freed := SameButBlocks.setBitmap s i middle.bitmap middle.logged
          exact freed.trans (SameButBlocks.setAddr _ i n 0)
        · rw [same]
          rfl
        · intro m apart
          rw [putDin_self, same]
          exact setAddr_of_ne _ _ apart
      · rw [entry, not_not] at none
        grind [update_zero, SameButBlocks.refl]
    · rintro _ middle ⟨same, blocks, addrs, exact'⟩
      have later : ∀ m ∈ rest,
          (middle.icache i).din.addrs m = Function.update own (X, n) 0 (X, m) := by
        intro m member
        have apart : m ≠ n := fun equal => absent (equal ▸ member)
        rw [addrs m apart, entries m (List.mem_cons_of_mem _ member), Function.update_of_ne]
        exact fun equal => apart (Prod.mk.inj equal).2
      refine Spec.mono (ih exact' later (List.nodup_cons.mp distinct).2) ?_
      rintro _ after ⟨same', blocks', addrs', last⟩
      refine ⟨same.trans same', blocks'.trans blocks, ?_, last⟩
      grind

end Loops

/-- The inode in slot `i` is free, and so are its blocks; nothing else changed. -/
structure Freed (s s' : State) (i : Fin NINODE) : Prop where
  dinodes : s'.dinodes = Function.update s.dinodes (s.icache i).inum (s'.icache i).din
  din : (s'.icache i).din = (s.icache i).din.freed (s'.icache i).din.addrs
  others : ∀ j, j ≠ i → s'.icache j = s.icache j
  slot : s'.icache i = { s.icache i with din := (s'.icache i).din, valid := false }
  blocks : s'.blocks = s.blocks
  namecache : s'.namecache = s.namecache
  ftable : s'.ftable = s.ftable
  procs : s'.procs = s.procs
  devsw : s'.devsw = s.devsw
  pipes : s'.pipes = s.pipes
  owned : Owned s'.blocks s'.dinodes s'.bitmap

theorem Freed.type {s s' : State} {i : Fin NINODE} (freed : Freed s s' i) :
    (s'.icache i).din.type = .free := by
  rw [freed.din]
  rfl

section Free

variable {allowed : Stops} {s : State} {i : Fin NINODE}

/-- The keys in the order in which `itrunc` frees their blocks. -/
def truncKeys (X : Nat) : List (Nat × Nat) :=
  ((List.range NDIRECT).map fun n => (X, n)) ++ ((List.range NINDIRECT).map fun j =>
    (X, NDIRECT + j)) ++ [(X, MAXFILE)]

theorem mem_truncKeys {X j n : Nat} : (j, n) ∈ truncKeys X ↔ j = X ∧ n ≤ MAXFILE := by
  simp only [truncKeys, List.mem_append, List.mem_map, List.mem_range, List.mem_singleton,
    Prod.mk.injEq, MAXFILE]
  constructor
  · rintro ((⟨m, small, rfl, rfl⟩ | ⟨m, small, rfl, rfl⟩) | ⟨rfl, rfl⟩)
    · exact ⟨rfl, by omega⟩
    · exact ⟨rfl, by omega⟩
    · exact ⟨rfl, by omega⟩
  · rintro ⟨rfl, bounded⟩
    by_cases direct : n < NDIRECT
    · exact Or.inl (Or.inl ⟨n, direct, rfl, rfl⟩)
    · by_cases inside : n < NDIRECT + NINDIRECT
      · exact Or.inl (Or.inr ⟨n - NDIRECT, by omega, rfl, by omega⟩)
      · exact Or.inr ⟨rfl, by omega⟩

/-- The second half of `itrunc`'s work, on the indirect block. -/
theorem truncIndirect_spec {own : Nat × Nat → Nat} {X : Nat}
    (exact : Exact nmeta FSSIZE own s.bitmap)
    (pointer : own (X, MAXFILE) = (s.icache i).din.addrs NDIRECT)
    (entries : ∀ j < NINDIRECT, own (X, NDIRECT + j) = if (s.icache i).din.addrs NDIRECT = 0 then 0
      else get32 (s.blocks ((s.icache i).din.addrs NDIRECT)) j) :
    Spec allowed (when ((s.icache i).din.addrs NDIRECT ≠ 0) do
      freeIndirect (s.blocks ((s.icache i).din.addrs NDIRECT)) (List.range NINDIRECT)
      bfree ((s.icache i).din.addrs NDIRECT)
      setDin i fun din => { din with addrs := Function.update din.addrs NDIRECT 0 }) s
      fun _ s' => SameButBlocks s s' i ∧ s'.blocks = s.blocks ∧
        Exact nmeta FSSIZE (cleared own (((List.range NINDIRECT).map fun j => (X, NDIRECT + j)) ++
          [(X, MAXFILE)])) s'.bitmap := by
  refine Spec.when (fun some => ?_) (fun none => ?_)
  · have listed : ∀ j ∈ List.range NINDIRECT,
        get32 (s.blocks ((s.icache i).din.addrs NDIRECT)) j = own (X, NDIRECT + j) := by
      grind
    refine Spec.bind (freeIndirect_spec exact listed List.nodup_range) ?_
    rintro _ middle ⟨same, exact'⟩
    have last : cleared own ((List.range NINDIRECT).map fun j => (X, NDIRECT + j)) (X, MAXFILE) =
        (s.icache i).din.addrs NDIRECT := by
      rw [cleared_of_not_mem, pointer]
      simp
    rw [← last] at some ⊢
    refine Spec.bind (bfree_spec exact' some) ?_
    rintro _ after ⟨same', exact''⟩
    rw [setDin_eq]
    refine Spec.modify ⟨?_, ?_, ?_⟩
    · rw [same', same]
      have freed := SameButBlocks.setBitmap s i after.bitmap after.logged
      exact freed.trans (SameButBlocks.setAddr _ i NDIRECT 0)
    · rw [same', same]
      rfl
    · rw [cleared_append, cleared_cons, cleared_nil]
      exact exact''
  · rw [not_not] at none
    refine ⟨SameButBlocks.refl s i, rfl, ?_⟩
    rw [cleared_of_none]
    · exact exact
    · intro key member
      rcases List.mem_append.mp member with entry | single
      · obtain ⟨j, small, rfl⟩ := List.mem_map.mp entry
        rw [entries j (List.mem_range.mp small), if_pos none]
      · rw [List.mem_singleton.mp single, pointer, none]

/-- `itrunc` frees all blocks of the inode. -/
theorem itrunc_spec (owned : Owned s.blocks (tableOf s i) s.bitmap)
    (allocated : (s.icache i).din.type ≠ .free) :
    Spec allowed (itrunc i) s fun _ s' => ∃ middle, SameButBlocks s middle i ∧
      middle.blocks = s.blocks ∧
      Exact nmeta FSSIZE (cleared (owner s.blocks (tableOf s i)) (truncKeys (s.icache i).inum))
        middle.bitmap ∧ s' = { middle.putDin i { (middle.icache i).din with size := 0 } with
        dinodes := Function.update middle.dinodes (middle.icache i).inum
          { (middle.icache i).din with size := 0 }
        logged := iblock (middle.icache i).inum :: middle.logged } := by
  have direct : ∀ n ∈ List.range NDIRECT, (s.icache i).din.addrs n =
      owner s.blocks (tableOf s i) ((s.icache i).inum, n) := by
    intro n member
    rw [owner_self allocated, blockAddr_direct (List.mem_range.mp member)]
  refine Spec.bind (freeDirect_spec owned direct List.nodup_range) ?_
  rintro _ first ⟨same, blocks, addrs, exact⟩
  refine Spec.bind_get ?_
  have kept : (first.icache i).din.addrs NDIRECT = (s.icache i).din.addrs NDIRECT :=
    addrs NDIRECT (by simp only [List.mem_range, Nat.lt_irrefl, not_false_eq_true])
  refine Spec.bind (truncIndirect_spec (X := (s.icache i).inum) exact ?_ ?_) ?_
  · rw [cleared_of_not_mem, owner_self allocated, blockAddr_indirect, kept]
    simp
  · intro j small
    rw [cleared_of_not_mem, owner_self allocated, kept, blocks, blockAddr, if_neg (by omega),
      if_pos (by simp only [MAXFILE]; omega), Nat.add_sub_cancel_left]
    simp
  · rintro _ middle ⟨same', blocks', exact'⟩
    rw [setDin_eq]
    refine Spec.modify ⟨middle, same.trans same', blocks'.trans blocks, ?_, ?_⟩
    · rw [truncKeys, List.append_assoc, cleared_append]
      exact exact'
    · simp only [putDin_self]
      rfl

/-- An inode that is freed owns nothing any more. -/
theorem owner_freed {table : Nat → Dinode} {blocks : Nat → Block} {X : Nat} {din : Dinode}
    (free : din.type = .free) :
    owner blocks (Function.update table X din) = cleared (owner blocks table) (truncKeys X) := by
  funext ⟨j, n⟩
  simp only [cleared, mem_truncKeys]
  by_cases here : j = X
  · subst here
    rw [owner, Function.update_self, if_pos free]
    split
    · rfl
    · rename_i outside
      have beyond : MAXFILE < n := by omega
      rw [owner]
      simp only [blockAddr_beyond beyond, ite_self]
  · simp only [here, false_and, ↓reduceIte, owner, Function.update_of_ne here]

theorem ifree_spec (owned : Owned s.blocks (tableOf s i) s.bitmap)
    (allocated : (s.icache i).din.type ≠ .free) :
    Spec allowed (ifree i) s fun _ s' => Freed s s' i := by
  refine Spec.bind (itrunc_spec owned allocated) ?_
  rintro _ trunc ⟨middle, same, blocks, exact, rfl⟩
  refine Spec.modify ?_
  have inum := same.inum
  have dinodes : Function.update (Function.update middle.dinodes (middle.icache i).inum
      { (middle.icache i).din with size := 0 }) (middle.icache i).inum
      { (middle.icache i).din with size := 0, type := .free } =
      Function.update s.dinodes (s.icache i).inum { (middle.icache i).din with size := 0, type :=
      .free } := by
    rw [Function.update_idem, same.dinodes, inum]
  constructor
  · simp only [State.putDin, Function.update_self]
    exact dinodes
  · simp only [State.putDin, Function.update_self]
    rw [same.slot]
    rfl
  · intro j apart
    simp only [State.putDin, Function.update_of_ne apart]
    exact same.others j apart
  · simp only [State.putDin, Function.update_self]
    rw [same.slot]
  · exact blocks
  · exact same.namecache
  · exact same.ftable
  · exact same.procs
  · exact same.devsw
  · exact same.pipes
  · simp only [State.putDin, Function.update_self]
    rw [dinodes, blocks, Owned]
    have table : Function.update s.dinodes (s.icache i).inum
        { (middle.icache i).din with size := 0, type := .free } =
        Function.update (tableOf s i) (s.icache i).inum
          { (middle.icache i).din with size := 0, type := .free } := by
      rw [tableOf, Function.update_idem]
    rw [table, owner_freed rfl]
    exact exact

end Free

end Xv6.Fs
