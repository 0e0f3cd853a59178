import Mathlib.Data.List.Count
import Mathlib.Data.List.Nodup
import Mathlib.Data.List.Perm.Subperm
import Xv6.Fs.Update

/- Whether the disk has room for a write: `balloc` panics only if every block is in use, and a
write takes exactly the blocks that the inode is short of. -/
namespace Xv6.Fs

open Exec hiding panic

/-- The blocks that `balloc` can still give out. -/
def State.freeBlocks (s : State) : Nat := (List.range FSSIZE).countP fun b => !s.bitmap b

/-- One unit less is free when a free one of the list is marked. -/
theorem countP_marked {used : Nat → Bool} {b : Nat} {units : List Nat} (distinct : units.Nodup)
    (member : b ∈ units) (free : used b = false) :
    (units.countP fun x => !Function.update used b true x) + 1 = units.countP fun x => !used x := by
  induction units with
  | nil => exact (List.not_mem_nil member).elim
  | cons unit rest ih =>
    rw [List.nodup_cons] at distinct
    rw [List.countP_cons, List.countP_cons]
    by_cases here : unit = b
    · subst here
      have others : (rest.countP fun x => !Function.update used unit true x) =
          rest.countP fun x => !used x := by
        refine List.countP_congr fun x inside => ?_
        have apart : x ≠ unit := fun same => distinct.1 (same ▸ inside)
        rw [Function.update_of_ne apart]
      grind
    · have inside : b ∈ rest := by
        rcases List.mem_cons.mp member with same | inside
        · exact (here same.symm).elim
        · exact inside
      have later := ih distinct.2 inside
      rw [Function.update_of_ne here]
      omega

section Blocks

variable {allowed : Stops} {s : State} {i : Fin NINODE} {n b count : Nat}

theorem freeBlocks_congr {s' : State} (same : s'.bitmap = s.bitmap) :
    s'.freeBlocks = s.freeBlocks := by
  rw [State.freeBlocks, State.freeBlocks, same]

theorem freeBlocks_claimBlock (inside : b < FSSIZE) (free : s.bitmap b = false) :
    (s.claimBlock b).freeBlocks + 1 = s.freeBlocks :=
  countP_marked List.nodup_range (List.mem_range.mpr inside) free

/-- `balloc` finds a block as long as one is free. -/
theorem balloc_takes (full : s.freeBlocks = 0 → allowed "balloc: out of blocks") :
    Spec allowed balloc s fun b s' => s' = s.claimBlock b ∧ s'.freeBlocks + 1 = s.freeBlocks := by
  refine Spec.bind_get ?_
  split
  · rename_i b found
    have inside := List.mem_range.mp (List.mem_of_find?_eq_some found)
    have free : s.bitmap b = false := by simpa using List.find?_some found
    refine Spec.bind_modify (Spec.pure ⟨rfl, ?_⟩)
    exact freeBlocks_claimBlock inside free
  · rename_i none
    refine Spec.panic (full ?_)
    refine List.countP_eq_zero.mpr fun b member free => ?_
    exact List.find?_eq_none.mp none b member free

/-- The blocks that `bmap` takes for block `n` of the inode in slot `i`. -/
def bmapTakes (s : State) (i : Fin NINODE) (n : Nat) : Nat :=
  let din := (s.icache i).din
  if n < NDIRECT then if din.addrs n = 0 then 1 else 0
  else if din.addrs NDIRECT = 0 then 2
  else if get32 (s.blocks (din.addrs NDIRECT)) (n - NDIRECT) = 0 then 1
  else 0

theorem indirect_takes {addr : Nat}
    (full : s.freeBlocks < (if get32 (s.blocks addr) n = 0 then 1 else 0) →
      allowed "balloc: out of blocks") :
    Spec allowed (bmap.indirect addr n) s fun _ s' =>
      s'.freeBlocks + (if get32 (s.blocks addr) n = 0 then 1 else 0) = s.freeBlocks := by
  refine Spec.bind_get ?_
  split
  · rename_i none
    rw [if_pos none] at full
    refine Spec.bind (balloc_takes fun empty => full (by omega)) ?_
    rintro new s1 ⟨_, one⟩
    refine Spec.bind_modify (Spec.pure ?_)
    exact (congrArg (· + 1) (freeBlocks_congr rfl)).trans one
  · exact Spec.pure (Nat.add_zero _)

theorem bmap_takes (inside : n < MAXFILE)
    (full : s.freeBlocks < bmapTakes s i n → allowed "balloc: out of blocks") :
    Spec allowed (bmap i n) s fun _ s' => s'.freeBlocks + bmapTakes s i n = s.freeBlocks := by
  unfold bmapTakes at full ⊢
  refine Spec.bind_get ?_
  dsimp only at full ⊢
  split
  · rename_i direct
    rw [if_pos direct] at full
    split
    · rename_i none
      rw [if_pos none] at full
      refine Spec.bind (balloc_takes fun empty => full (by omega)) ?_
      rintro new s1 ⟨_, one⟩
      refine Spec.bind_modify (Spec.pure ?_)
      exact (congrArg (· + 1) (freeBlocks_congr rfl)).trans one
    · exact Spec.pure (Nat.add_zero _)
  · rename_i large
    rw [if_neg large] at full
    rw [if_pos (show n - NDIRECT < NINDIRECT by simp only [MAXFILE] at inside; omega)]
    split
    · rename_i none
      rw [if_pos none] at full
      refine Spec.bind (balloc_takes fun empty => full (by omega)) ?_
      rintro new s1 ⟨same, one⟩
      refine Spec.bind_modify ?_
      -- The new indirect block is zeroed, so that its entry is missing too.
      have zero : s1.blocks new = fun _ => 0 := by
        rw [same]
        exact Function.update_self _ _ _
      have entry : get32 (s1.blocks new) (n - NDIRECT) = 0 := by rw [zero, get32_zero]
      have second := @indirect_takes allowed (s1.putDin i ((s1.icache i).din.setAddr NDIRECT new))
        (n - NDIRECT) new
      have still : (s1.putDin i ((s1.icache i).din.setAddr NDIRECT new)).freeBlocks =
        s1.freeBlocks :=
        freeBlocks_congr rfl
      rw [show (s1.putDin i ((s1.icache i).din.setAddr NDIRECT new)).blocks new = s1.blocks
        new from rfl, if_pos entry, still] at second
      refine Spec.mono (second fun empty => full (by omega)) ?_
      omega
    · grind [indirect_takes]

/-- What `bmap` takes for a block up to the next one is what the inode is short of. -/
theorem Flight.takes (flight : Flight s i count) (below : n ≤ count) (inside : n < MAXFILE) :
    bmapTakes s i n + held count = held (max count (n + 1)) := by
  have data := flight.shaped.data n inside
  have indirect := flight.shaped.indirect
  unfold bmapTakes
  by_cases direct : n < NDIRECT
  · grind [blockAddr_direct, held, Nat.max_eq_left]
  · rw [if_neg direct]
    unfold held
    split
    · rename_i none
      have few : ¬ NDIRECT < count := fun more => indirect.mpr more none
      rw [if_neg few, if_pos (by omega)]
      omega
    rename_i pointer
    have more := indirect.mp pointer
    rw [blockAddr_entry (by omega) inside pointer] at data
    have grown : NDIRECT < max count (n + 1) := by omega
    split
    · omega
    · omega

/-- The loop of `writei` takes what the inode is short of. -/
theorem writeiLoop_takes {fuel off : Nat} {src : List UInt8} (enough : src.length ≤ fuel)
    (flight : Flight s i count) (start : blocksOf off ≤ count)
    (fits : off + src.length ≤ MAXFILE * BSIZE)
    (full : held count + s.freeBlocks < held (max count (blocksOf (off + src.length))) →
      allowed "balloc: out of blocks") : Spec allowed (writeiLoop i fuel off src) s fun _ s' =>
      s'.freeBlocks + held (max count (blocksOf (off + src.length))) = s.freeBlocks + held count :=
        by
  have idle : src.length = 0 → s.freeBlocks + held (max count (blocksOf (off + src.length))) =
      s.freeBlocks + held count := by
    grind
  induction fuel generalizing s off src count with
  | zero => exact Spec.pure (idle (by omega))
  | succ fuel ih =>
    unfold writeiLoop
    split
    · rename_i none
      exact Spec.pure (idle none)
    have inside : off / BSIZE < MAXFILE := div_lt_maxfile (by omega)
    have next : off / BSIZE ≤ count := div_le_blocksOf.trans start
    have takes := flight.takes next inside
    have reach : max (max count (off / BSIZE + 1)) (blocksOf (off + src.length)) =
        max count (blocksOf (off + src.length)) := max_blocksOf (by omega)
    have grows : held (max count (off / BSIZE + 1)) ≤ held
      (max count (blocksOf (off + src.length))) := by
      rw [← reach]
      exact held_mono (Nat.le_max_left _ _)
    have mapped : Spec allowed (bmap i (off / BSIZE)) s fun addr s' =>
        Mapped s s' i (off / BSIZE) addr ∧ s'.freeBlocks + bmapTakes s i (off / BSIZE) =
          s.freeBlocks :=
      Spec.both (@bmap_spec s i Stops.all (off / BSIZE) (fun _ => trivial) flight.owned
        flight.allocated inside)
        (bmap_takes inside fun short => full (by omega)) (fun _ _ fine => fine) (fun _ fine => fine)
    refine Spec.bind mapped ?_
    rintro addr middle ⟨mapped, used⟩
    refine Spec.bind_modify ?_
    have here : owner middle.blocks (tableOf middle i) ((middle.icache i).inum, off / BSIZE) =
      addr := by
      rw [mapped.kept.same.inum]
      exact mapped.here
    have grown := (flight.mapped mapped next inside).writeBlock inside here (off % BSIZE)
      (src.take (min src.length (BSIZE - off % BSIZE)))
    have short : (src.drop (min src.length (BSIZE - off % BSIZE))).length ≤ fuel := by
      have positive : 0 < BSIZE - off % BSIZE := by
        simp only [BSIZE]
        omega
      rw [List.length_drop]
      omega
    have whole : off + min src.length (BSIZE - off % BSIZE) +
        (src.drop (min src.length (BSIZE - off % BSIZE))).length = off + src.length := by
      rw [List.length_drop]
      omega
    have same : (middle.writeBlock addr (off % BSIZE)
        (src.take (min src.length (BSIZE - off % BSIZE)))).freeBlocks = middle.freeBlocks :=
        freeBlocks_congr rfl
    have later := ih short grown (@blocksOf_round off src.length count) (by omega)
    rw [whole, reach, same] at later
    refine Spec.mono (later (fun lacking => full (by omega)) fun none => ?_) ?_
    · have last : off + min src.length (BSIZE - off % BSIZE) = off + src.length := by omega
      have covered := @blocksOf_round off src.length count
      rw [last] at covered
      rw [← reach, Nat.max_eq_left covered]
    · omega

end Blocks

section Writei

variable {allowed : Stops} {s : State} {i : Fin NINODE} {dirty : Fin NINODE → Bool}
  {src : List UInt8} {off : Nat}

/-- The arguments with which `writei` fails. -/
def writeRefused (size off n : Nat) : Prop :=
  size < off ∨ 2 ^ 32 ≤ off + n ∨ MAXFILE * BSIZE < off + n

/-- The arguments with which `readi` fails. -/
def readRefused (size off n : Nat) : Prop := size < off ∨ 2 ^ 32 ≤ off + n

instance (size off n : Nat) : Decidable (writeRefused size off n) := by
  unfold writeRefused
  infer_instance

instance (size off n : Nat) : Decidable (readRefused size off n) := by
  unfold readRefused
  infer_instance

/-- The blocks that an inode of `size` bytes needs for a write are free. -/
def State.RoomFor (s : State) (size off n : Nat) : Prop :=
  held (max (blocksOf size) (blocksOf (off + n))) ≤ held (blocksOf size) + s.freeBlocks

instance (s : State) (size off n : Nat) : Decidable (s.RoomFor size off n) := by
  unfold State.RoomFor
  infer_instance

theorem writei_refused (regular : (s.icache i).din.type ≠ .dev)
    (refused : writeRefused (s.icache i).din.size off src.length) :
    writei i src off s = .ok (-1, s) := by
  have result : Spec Stops.nothing (writei i src off) s fun r s' => r = -1 ∧ s' = s := by
    refine Spec.bind_get ?_
    rw [if_neg regular]
    split
    · exact Spec.pure ⟨rfl, rfl⟩
    rename_i inside
    have small : MAXFILE * BSIZE < 2 ^ 32 := by decide
    rw [if_pos]
    · exact Spec.pure ⟨rfl, rfl⟩
    · rcases refused with beyond | wraps | exceeds
      · exact (inside (Or.inl beyond)).elim
      · omega
      · exact exceeds
  obtain ⟨r, s', returned, rfl, rfl⟩ := result.total
  exact returned

/-- A write that is not refused stores the bytes, in the blocks that the inode is short of; it
stops only if the disk is short of blocks. -/
theorem writei_takes (sane : Sane dirty s) (used : 0 < (s.icache i).ref)
    (valid : (s.icache i).valid = true) (clean : dirty i = false)
    (regular : (s.icache i).din.type ≠ .dev)
    (accepted : ¬ writeRefused (s.icache i).din.size off src.length)
    (full : ¬ s.RoomFor (s.icache i).din.size off src.length → allowed "balloc: out of blocks") :
    Spec allowed (writei i src off) s fun r s' => r = Int.ofNat src.length ∧ Sane dirty s' ∧
      Stored s s' i off src ∧
      s'.freeBlocks + held (max (blocksOf (s.icache i).din.size) (blocksOf (off + src.length))) =
        s.freeBlocks + held (blocksOf (s.icache i).din.size) := by
  have counted : Spec allowed (writei i src off) s fun r s' => r = Int.ofNat src.length ∧
      s'.freeBlocks + held (max (blocksOf (s.icache i).din.size) (blocksOf (off + src.length))) =
        s.freeBlocks + held (blocksOf (s.icache i).din.size) := by
    unfold writeRefused at accepted
    refine Spec.bind_get ?_
    have mod : (off + src.length) % 2 ^ 32 = off + src.length := Nat.mod_eq_of_lt (by omega)
    rw [if_neg regular, mod, if_neg (by omega), if_neg (by omega)]
    have start : blocksOf off ≤ blocksOf (s.icache i).din.size := by
      simp only [blocksOf, BSIZE]
      omega
    have lacking : held (blocksOf (s.icache i).din.size) + s.freeBlocks <
        held (max (blocksOf (s.icache i).din.size) (blocksOf (off + src.length))) →
          allowed "balloc: out of blocks" := fun less => full (Nat.not_le.mpr less)
    refine Spec.bind (writeiLoop_takes (Nat.le_refl _) (sane.flight used valid clean) start
      (by omega) lacking) ?_
    intro final s1 left
    refine Spec.through (fun _ s2 => s2.freeBlocks = s1.freeBlocks) ?_ ?_
    · refine Spec.when (fun _ => ?_) fun _ => rfl
      exact Spec.bind_modify (Spec.modify (freeBlocks_congr rfl))
    · grind [Spec.pure]
  have stores : Spec ⟨fun message => message = "balloc: out of blocks", False⟩
    (writei i src off) s _ :=
    writei_spec rfl sane used valid clean src off
  refine Spec.mono (Spec.both stores counted (fun _ _ fine => fine) fun never _ => never.elim) ?_
  rintro r s' ⟨⟨sane', ⟨_, device | failed⟩ | ⟨_, _, _, stored⟩⟩, all, left⟩
  · exact (regular device).elim
  · rw [all] at failed
    cases failed
  · exact ⟨all, sane', stored, left⟩

/-- The blocks of an inode and the free ones are different blocks of the disk. -/
theorem Sane.capacity (sane : Sane dirty s) {X : Nat} (allocated : (s.dinodes X).type ≠ .free) :
    held (blocksOf (s.dinodes X).size) + s.freeBlocks ≤ FSSIZE := by
  have shaped := (sane.sized X allocated).shaped
  have bound := shaped.bound
  generalize blocksOf (s.dinodes X).size = count at shaped bound ⊢
  have own : ∀ n, owner s.blocks s.dinodes (X, n) = blockAddr s.blocks (s.dinodes X) n :=
    owner_of_allocated allocated
  let keys : List (Nat × Nat) := (List.range count).map (fun n => (X, n)) ++
    if NDIRECT < count then [(X, MAXFILE)] else []
  have length : keys.length = held count := by
    grind [held, List.length_append, List.length_map, List.length_range]
  have some : ∀ key ∈ keys, owner s.blocks s.dinodes key ≠ 0 := by
    intro key member
    rcases List.mem_append.mp member with data | last
    · obtain ⟨n, below, rfl⟩ := List.mem_map.mp data
      have small := List.mem_range.mp below
      rw [own]
      exact (shaped.data n (by omega)).mpr small
    · grind [List.mem_singleton, blockAddr_indirect, Shaped.indirect]
  have distinct : keys.Nodup := by
    refine List.nodup_append.mpr ⟨?_, ?_, ?_⟩
    · exact List.nodup_range.map fun n m same => (Prod.mk.inj same).2
    · grind
    · intro a first b last same
      obtain ⟨n, below, rfl⟩ := List.mem_map.mp first
      have small := List.mem_range.mp below
      split at last
      · rw [List.mem_singleton.mp last] at same
        have equal := (Prod.mk.inj same).2
        omega
      · exact List.not_mem_nil last
  have blocks : (keys.map (owner s.blocks s.dinodes)).Nodup := by
    refine distinct.map_on fun a inA b inB same => ?_
    exact sane.owned.once a b (some a inA) same
  have apart : ((keys.map (owner s.blocks s.dinodes)) ++
      (List.range FSSIZE).filter fun b => !s.bitmap b).Nodup := by
    refine List.nodup_append.mpr ⟨blocks, List.nodup_range.filter _, ?_⟩
    intro a first b free same
    obtain ⟨key, member, rfl⟩ := List.mem_map.mp first
    have marked := sane.owned.marked (some key member)
    have clear := (List.mem_filter.mp free).2
    rw [← same, marked] at clear
    cases clear
  have inside : ((keys.map (owner s.blocks s.dinodes)) ++
      (List.range FSSIZE).filter fun b => !s.bitmap b) ⊆ List.range FSSIZE := by
    intro b member
    rcases List.mem_append.mp member with first | free
    · obtain ⟨key, listed, rfl⟩ := List.mem_map.mp first
      exact List.mem_range.mpr (sane.owned.inRange key (some key listed)).2
    · exact (List.mem_filter.mp free).1
  have total := (apart.subperm inside).length_le
  rw [List.length_append, List.length_map, List.length_range, length,
    ← List.countP_eq_length_filter] at total
  exact total

end Writei

end Xv6.Fs
