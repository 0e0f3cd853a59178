import Xv6.Fs.Bmap

/- The loops of readi and writei: which bytes a read gives, and what a write leaves. -/
namespace Xv6.Fs

open Exec hiding panic
open Ownership

variable {size : Nat} {blocks blocks' : Nat → Block} {din : Dinode} {src : List UInt8}

/-- Byte `k` of an inode's content. -/
def byteAt (blocks : Nat → Block) (din : Dinode) (k : Nat) : UInt8 :=
  blocks (blockAddr blocks din (k / BSIZE)) (k % BSIZE)

/-- How many blocks `size` bytes take. -/
def blocksOf (size : Nat) : Nat := (size + BSIZE - 1) / BSIZE

section Arithmetic

variable {off k len count : Nat}

theorem block_of_inside (lower : off ≤ k) (upper : k < off + min len (BSIZE - off % BSIZE)) :
    k / BSIZE = off / BSIZE ∧ k % BSIZE = off % BSIZE + (k - off) := by
  simp only [BSIZE] at upper ⊢
  omega

theorem block_of_outside (same : k / BSIZE = off / BSIZE)
    (outside : k < off ∨ off + min len (BSIZE - off % BSIZE) ≤ k) :
    k % BSIZE < off % BSIZE ∨ off % BSIZE + min len (BSIZE - off % BSIZE) ≤ k % BSIZE := by
  simp only [BSIZE] at same outside ⊢
  omega

/-- The round that starts at `off` ends in its block, or at the start of the next one. -/
theorem blocksOf_round :
    blocksOf (off + min len (BSIZE - off % BSIZE)) ≤ max count (off / BSIZE + 1) := by
  simp only [blocksOf, BSIZE]
  omega

theorem div_le_blocksOf : off / BSIZE ≤ blocksOf off := by
  simp only [blocksOf, BSIZE]
  omega

theorem lt_blocksOf {n : Nat} : n < blocksOf size ↔ n * BSIZE < size := by
  simp only [blocksOf, BSIZE]
  omega

theorem div_lt_blocksOf (inside : k < size) : k / BSIZE < blocksOf size := by
  simp only [blocksOf, BSIZE]
  omega

theorem blocksOf_pos (nonempty : 0 < size) : 0 < blocksOf size := by
  simp only [blocksOf, BSIZE]
  omega

theorem div_lt_maxfile (inside : k < MAXFILE * BSIZE) : k / BSIZE < MAXFILE :=
  Nat.div_lt_of_lt_mul (by rwa [Nat.mul_comm] at inside)

/-- What one round and the rest of the loop reach together. -/
theorem max_blocksOf (nonempty : 0 < len) :
    max (max count (off / BSIZE + 1)) (blocksOf (off + len)) = max count
      (blocksOf (off + len)) := by
  simp only [blocksOf, BSIZE]
  omega

end Arithmetic

section Keys

variable {s : State} {i : Fin NINODE} {n : Nat}

theorem owner_self (allocated : (s.icache i).din.type ≠ .free) :
    owner s.blocks (tableOf s i) ((s.icache i).inum, n) = blockAddr s.blocks
      (s.icache i).din n := by
  rw [owner, tableOf_self, if_neg allocated]

theorem owner_foreign {j : Nat} (apart : j ≠ (s.icache i).inum)
    (allocated : (s.dinodes j).type ≠ .free) :
    owner s.blocks (tableOf s i) (j, n) = blockAddr s.blocks (s.dinodes j) n := by
  rw [owner, tableOf_of_ne s apart, if_neg allocated]

end Keys

/-- The blocks of the inode are where they were, with the data they had. -/
def Intact (blocks blocks' : Nat → Block) (din : Dinode) : Prop :=
  ∀ n, blockAddr blocks' din n = blockAddr blocks din n ∧
    (n < MAXFILE → blockAddr blocks din n ≠ 0 →
      blocks' (blockAddr blocks din n) = blocks (blockAddr blocks din n))

theorem Intact.trans {blocks'' : Nat → Block}
    (first : Intact blocks blocks' din) (second : Intact blocks' blocks'' din) :
    Intact blocks blocks'' din := by
  intro n
  obtain ⟨addr, data⟩ := first n
  obtain ⟨addr', data'⟩ := second n
  grind

theorem Intact.refl (blocks : Nat → Block) (din : Dinode) : Intact blocks blocks din :=
  fun _ => ⟨rfl, fun _ _ => rfl⟩

theorem Intact.byteAt (intact : Intact blocks blocks' din)
    {k : Nat} (inside : k / BSIZE < MAXFILE) (some : blockAddr blocks din (k / BSIZE) ≠ 0) :
    byteAt blocks' din k = byteAt blocks din k := by
  obtain ⟨addr, data⟩ := intact (k / BSIZE)
  rw [Fs.byteAt, Fs.byteAt, addr, data inside some]

theorem Intact.shaped {count : Nat}
    (intact : Intact blocks blocks' din) (shaped : Shaped blocks din count) :
    Shaped blocks' din count := by
  refine ⟨shaped.bound, fun n inside => ?_, shaped.indirect⟩
  rw [(intact n).1]
  exact shaped.data n inside

/-- The bytes `src` were written to the inode in slot `i` at `off`, and nothing else was. -/
structure Wrote (s s' : State) (i : Fin NINODE) (off : Nat) (src : List UInt8) : Prop where
  same : SameButBlocks s s' i
  addr : ∀ n, blockAddr s.blocks (s.icache i).din n ≠ 0 →
    blockAddr s'.blocks (s'.icache i).din n = blockAddr s.blocks (s.icache i).din n
  foreign : ∀ j, j ≠ (s.icache i).inum → (s.dinodes j).type ≠ .free →
    Intact s.blocks s'.blocks (s.dinodes j)
  some : ∀ k, off ≤ k → k < off + src.length →
    k / BSIZE < MAXFILE ∧ blockAddr s'.blocks (s'.icache i).din (k / BSIZE) ≠ 0
  inside : ∀ k, off ≤ k → k < off + src.length →
    byteAt s'.blocks (s'.icache i).din k = src.getD (k - off) 0
  outside : ∀ k, k < off ∨ off + src.length ≤ k → k / BSIZE < MAXFILE →
    blockAddr s.blocks (s.icache i).din (k / BSIZE) ≠ 0 →
    byteAt s'.blocks (s'.icache i).din k = byteAt s.blocks (s.icache i).din k
  fresh : ∀ k, k < off ∨ off + src.length ≤ k → k / BSIZE < MAXFILE →
    blockAddr s.blocks (s.icache i).din (k / BSIZE) = 0 →
    blockAddr s'.blocks (s'.icache i).din (k / BSIZE) ≠ 0 → byteAt s'.blocks (s'.icache i).din k = 0
  idle : (∀ k, off ≤ k → k < off + src.length →
    blockAddr s.blocks (s.icache i).din (k / BSIZE) ≠ 0) → s'.icache = s.icache ∧
    s'.bitmap = s.bitmap

theorem Wrote.relog {s s' : State} {i : Fin NINODE} {off : Nat} (wrote : Wrote s s' i off src)
    (logged : List Nat) : Wrote s (s'.relog logged) i off src :=
  ⟨wrote.same.relog logged, wrote.addr, wrote.foreign, wrote.some, wrote.inside, wrote.outside,
    wrote.fresh, wrote.idle⟩

theorem Wrote.refl (s : State) (i : Fin NINODE) (off : Nat) : Wrote s s i off [] where
  same := SameButBlocks.refl s i
  addr := fun _ _ => rfl
  foreign := fun _ _ _ => Intact.refl _ _
  some := fun k lower upper => by simp only [List.length_nil] at upper; omega
  inside := fun k lower upper => by simp only [List.length_nil] at upper; omega
  outside := fun _ _ _ _ => rfl
  fresh := fun _ _ _ none some => (some none).elim
  idle := fun _ => ⟨rfl, rfl⟩

/-- A write is the write of its first `m` bytes and then of the others. -/
theorem Wrote.append {s s' s'' : State} {i : Fin NINODE} {off m : Nat}
    (short : m ≤ src.length) (first : Wrote s s' i off (src.take m))
    (second : Wrote s' s'' i (off + m) (src.drop m)) : Wrote s s'' i off src := by
  have head : (src.take m).length = m := List.length_take_of_le short
  have tail : (src.drop m).length = src.length - m := List.length_drop
  have inum := first.same.inum
  have someFirst := first.some
  rw [head] at someFirst
  have someSecond := second.some
  refine ⟨first.same.trans second.same, ?_, ?_, ?_, ?_, ?_, ?_, ?_⟩
  · intro n nonzero
    have kept := first.addr n nonzero
    rw [second.addr n (by rwa [kept]), kept]
  · intro j apart allocated
    have later := second.foreign j (by rwa [inum])
    rw [first.same.dinodes] at later
    exact (first.foreign j apart allocated).trans (later allocated)
  · intro k lower upper
    by_cases early : k < off + m
    · obtain ⟨bounded, nonzero⟩ := someFirst k lower early
      exact ⟨bounded, by rwa [second.addr _ nonzero]⟩
    · exact someSecond k (by omega) (by omega)
  · intro k lower upper
    by_cases early : k < off + m
    · obtain ⟨bounded, nonzero⟩ := someFirst k lower early
      rw [second.outside k (Or.inl early) bounded nonzero,
        first.inside k lower (by rw [head]; exact early)]
      grind
    · rw [second.inside k (by omega) (by omega)]
      simp only [List.getD_eq_getElem?_getD, List.getElem?_drop]
      rw [show m + (k - (off + m)) = k - off by omega]
  · intro k outside bounded nonzero
    have kept := first.addr _ nonzero
    grind [outside]
  · intro k outside bounded none some
    by_cases early : blockAddr s'.blocks (s'.icache i).din (k / BSIZE) = 0
    · exact second.fresh k (by omega) bounded early some
    · grind [outside, fresh]
  · intro had
    obtain ⟨icache, bitmap⟩ := first.idle fun k lower upper => had k lower (by omega)
    obtain ⟨icache', bitmap'⟩ := second.idle fun k lower upper => by
      have nonzero := had k (by omega) (by omega)
      rwa [first.addr _ nonzero]
    exact ⟨icache'.trans icache, bitmap'.trans bitmap⟩

section Round

variable {allowed : Stops} {s s' : State} {i : Fin NINODE} {n addr count : Nat}

/-- Writing to a data block moves nothing. -/
theorem Owned.owner_data {table : Nat → Dinode} {bitmap : Nat → Bool}
    (owned : Owned blocks table bitmap) {j : Nat} (inside : n < MAXFILE)
    (own : owner blocks table (j, n) = addr) (value : Block) :
    owner (Function.update blocks addr value) table = owner blocks table := by
  refine owner_congr fun other allocated used => ?_
  have pointer : owner blocks table (other, MAXFILE) = (table other).addrs NDIRECT := by
    rw [owner_of_allocated allocated, blockAddr_indirect]
  have apart : owner blocks table (other, MAXFILE) ≠ owner blocks table (j, n) := by
    refine owned.apart (by rwa [pointer]) ?_
    intro equal
    have last := (Prod.mk.inj equal).2
    omega
  grind

/-- `bmap` of the next block adds it to the blocks of the inode. -/
theorem Flight.mapped (flight : Flight s i count) (mapped : Mapped s s' i n addr)
    (below : n ≤ count) (inside : n < MAXFILE) : Flight s' i (max count (n + 1)) := by
  have inum := mapped.kept.same.inum
  have allocated : (s'.icache i).din.type ≠ .free := by
    rw [mapped.kept.same.slot]
    exact flight.allocated
  refine ⟨mapped.owned, ⟨?_, ?_, ?_⟩, allocated⟩
  · have bound := flight.shaped.bound
    omega
  · intro m bounded
    have shape := flight.shaped.data m bounded
    rw [← owner_self allocated, inum]
    by_cases here : m = n
    · subst here
      rw [mapped.here]
      have some := mapped.some
      omega
    · rw [mapped.others m bounded here, owner_self flight.allocated, shape]
      omega
  · rw [mapped.indirect, flight.shaped.indirect]
    omega

/-- The state with bytes written to the block at `addr`. -/
def State.writeBlock (s : State) (addr off : Nat) (src : List UInt8) : State :=
  { s with
    blocks := Function.update s.blocks addr (overwrite (s.blocks addr) off src)
    logged := addr :: s.logged }

theorem Flight.writeBlock (flight : Flight s i count) (inside : n < MAXFILE)
    (here : owner s.blocks (tableOf s i) ((s.icache i).inum, n) = addr)
    (off : Nat) (src : List UInt8) : Flight (s.writeBlock addr off src) i count := by
  have same := flight.owned.owner_data inside here (overwrite (s.blocks addr) off src)
  refine ⟨?_, ⟨flight.shaped.bound, ?_, flight.shaped.indirect⟩, flight.allocated⟩
  · change Exact nmeta FSSIZE (owner (Function.update s.blocks addr _) (tableOf s i)) s.bitmap
    rw [same]
    exact flight.owned
  · intro m bounded
    have key := congrFun same ((s.icache i).inum, m)
    rw [owner_self flight.allocated] at key
    change owner (s.writeBlock addr off src).blocks (tableOf (s.writeBlock addr off src) i)
      _ = _ at key
    rw [show (s.icache i).inum = ((s.writeBlock addr off src).icache i).inum from rfl,
      owner_self (show ((s.writeBlock addr off src).icache i).din.type ≠ .free
      from flight.allocated)]
      at key
    rw [key]
    exact flight.shaped.data m bounded

/-- A write of some bytes that lie in one block. -/
theorem Mapped.wrote (flight : Flight s i count) {off : Nat} {bytes : List UInt8}
    (mapped : Mapped s s' i (off / BSIZE) addr) (inside : off / BSIZE < MAXFILE)
    (nonempty : 0 < bytes.length) (short : bytes.length ≤ BSIZE - off % BSIZE) :
    Wrote s (s'.writeBlock addr (off % BSIZE) bytes) i off bytes := by
  have least : min bytes.length (BSIZE - off % BSIZE) = bytes.length := Nat.min_eq_left short
  have inum := mapped.kept.same.inum
  have allocated' : (s'.icache i).din.type ≠ .free := by
    rw [mapped.kept.same.slot]
    exact flight.allocated
  have here : owner s'.blocks (tableOf s' i) ((s'.icache i).inum, off / BSIZE) = addr := by
    rw [inum]
    exact mapped.here
  have unmoved : owner (s'.writeBlock addr (off % BSIZE) bytes).blocks (tableOf s' i) =
      owner s'.blocks (tableOf s' i) := mapped.owned.owner_data inside here _
  have position : ∀ m, blockAddr (s'.writeBlock addr (off % BSIZE) bytes).blocks
      (s'.icache i).din m = owner s'.blocks (tableOf s' i) ((s'.icache i).inum, m) := by
    intro m
    rw [← unmoved]
    exact (@owner_self (s'.writeBlock addr (off % BSIZE) bytes) i m allocated').symm
  have held : ∀ m, blockAddr s.blocks (s.icache i).din m ≠ 0 →
      blockAddr (s'.writeBlock addr (off % BSIZE) bytes).blocks (s'.icache i).din m =
        blockAddr s.blocks (s.icache i).din m := by
    grind [kept, Kept.addr, owner_self, Flight.allocated]
  have elsewhere : ∀ a, a ≠ addr → (s'.writeBlock addr (off % BSIZE) bytes).blocks a =
    s'.blocks a :=
    fun a apart => Function.update_of_ne apart _ _
  have written : (s'.writeBlock addr (off % BSIZE) bytes).blocks addr =
      overwrite (s'.blocks addr) (off % BSIZE) bytes := Function.update_self _ _ _
  have first : blockAddr (s'.writeBlock addr (off % BSIZE) bytes).blocks (s'.icache i).din
      (off / BSIZE) = addr := by rw [position, here]
  refine ⟨mapped.kept.same.trans (SameButBlocks.setBlock s' i _ _ _), held, ?_, ?_, ?_, ?_, ?_, ?_⟩
  · intro j apart allocated m
    have key : owner s.blocks (tableOf s i) (j, m) = blockAddr s.blocks (s.dinodes j) m :=
      owner_foreign apart allocated
    have kept : owner s'.blocks (tableOf s' i) (j, m) = blockAddr s.blocks (s.dinodes j) m := by
      rw [mapped.kept.foreign j m apart, key]
    constructor
    · rw [← kept, ← unmoved]
      rw [owner, tableOf_of_ne s' (by rwa [inum]), mapped.kept.same.dinodes, if_neg allocated]
    · intro bounded nonzero
      have different : owner s'.blocks (tableOf s' i) (j, m) ≠ addr := by
        rw [← here]
        refine mapped.owned.apart (by rwa [kept]) ?_
        grind
      grind [kept, Kept.data]
  · intro k lower upper
    have block := (block_of_inside lower (by rwa [least])).1
    rw [block]
    refine ⟨inside, ?_⟩
    change blockAddr _ (s'.icache i).din _ ≠ 0
    rw [first]
    exact mapped.some
  · intro k lower upper
    obtain ⟨block, rest⟩ := block_of_inside lower (by rwa [least])
    change byteAt _ (s'.icache i).din k = _
    rw [byteAt, block, first, written, rest, overwrite_inside _ _ _ _ (by omega) (by omega)]
    rw [Nat.add_sub_cancel_left]
  · intro k outside bounded nonzero
    change byteAt _ (s'.icache i).din k = _
    have data := mapped.kept.data (s.icache i).inum (k / BSIZE) bounded
      (by rwa [owner_self flight.allocated])
    rw [owner_self flight.allocated] at data
    rw [byteAt, held _ nonzero]
    by_cases same : k / BSIZE = off / BSIZE
    · have target : blockAddr s.blocks (s.icache i).din (k / BSIZE) = addr := by
        rw [← held _ nonzero, same, first]
      have apart := block_of_outside same (by rwa [least])
      rw [least] at apart
      rw [target, written, overwrite_outside _ _ _ _ apart, ← target, data]
      rfl
    · have different : blockAddr s.blocks (s.icache i).din (k / BSIZE) ≠ addr := by
        rw [← held _ nonzero, position, ← here]
        refine mapped.owned.apart ?_ fun equal => same (Prod.mk.inj equal).2
        grind
      rw [elsewhere _ different, data]
      rfl
  · intro k outside bounded none some
    change blockAddr _ (s'.icache i).din (k / BSIZE) ≠ 0 at some
    have same : k / BSIZE = off / BSIZE := by grind [others, owner_self, Flight.allocated]
    have apart := block_of_outside same (by rwa [least])
    rw [least] at apart
    rw [same] at none
    change byteAt _ (s'.icache i).din k = _
    rw [byteAt, same, first, written, overwrite_outside _ _ _ _ apart,
      mapped.fresh (by rwa [owner_self flight.allocated])]
  · intro had
    have nonzero := had off (Nat.le_refl _) (by omega)
    have unchanged := mapped.idle (by rwa [owner_self flight.allocated])
    subst unchanged
    exact ⟨rfl, rfl⟩

end Round

section Loops

variable {allowed : Stops} {s : State} {i : Fin NINODE} {count : Nat}

/-- The loop of `writei` writes `src`, and ends with the blocks up to its end. -/
theorem writeiLoop_spec (full : allowed "balloc: out of blocks") {fuel off : Nat}
    (enough : src.length ≤ fuel) (flight : Flight s i count) (start : blocksOf off ≤ count)
    (fits : off + src.length ≤ MAXFILE * BSIZE) :
    Spec allowed (writeiLoop i fuel off src) s fun final s' => final = off + src.length ∧
      Wrote s s' i off src ∧ Flight s' i (max count (blocksOf (off + src.length))) := by
  induction fuel generalizing s off src count with
  | zero =>
    have none : src = [] := List.length_eq_zero_iff.mp (by omega)
    subst none
    exact Spec.pure ⟨rfl, Wrote.refl s i off,
      by rwa [List.length_nil, Nat.add_zero, Nat.max_eq_left start]⟩
  | succ fuel ih =>
    unfold writeiLoop
    split
    · rename_i none
      have none : src = [] := List.length_eq_zero_iff.mp none
      subst none
      exact Spec.pure ⟨rfl, Wrote.refl s i off,
        by rwa [List.length_nil, Nat.add_zero, Nat.max_eq_left start]⟩
    have inside : off / BSIZE < MAXFILE := div_lt_maxfile (by omega)
    refine Spec.bind (bmap_spec (fun _ => full) flight.owned flight.allocated inside) ?_
    intro addr middle mapped
    refine Spec.bind_modify ?_
    have positive : 0 < BSIZE - off % BSIZE := by
      simp only [BSIZE]
      omega
    have round : min src.length (BSIZE - off % BSIZE) ≤ src.length := Nat.min_le_left _ _
    have here : owner middle.blocks (tableOf middle i) ((middle.icache i).inum, off / BSIZE) =
        addr := by
      rw [mapped.kept.same.inum]
      exact mapped.here
    have grown := (flight.mapped mapped (div_le_blocksOf.trans start) inside).writeBlock inside here
      (off % BSIZE) (src.take (min src.length (BSIZE - off % BSIZE)))
    have wrote : Wrote s _ i off (src.take (min src.length (BSIZE - off % BSIZE))) :=
      mapped.wrote flight inside (by rw [List.length_take]; omega) (by rw [List.length_take]; omega)
    have rest : (src.drop (min src.length (BSIZE - off % BSIZE))).length =
        src.length - min src.length (BSIZE - off % BSIZE) := List.length_drop
    refine Spec.mono (ih (by omega) grown blocksOf_round (by omega)) ?_
    rintro final after ⟨ends, later, last⟩
    have whole : off + min src.length (BSIZE - off % BSIZE) +
        (src.drop (min src.length (BSIZE - off % BSIZE))).length = off + src.length := by omega
    rw [whole] at ends last
    rw [max_blocksOf (by omega)] at last
    exact ⟨ends, Wrote.append round wrote later, last⟩

/-- The bytes of [off, off + n) of an inode's content. -/
def contentOf (blocks : Nat → Block) (din : Dinode) (off n : Nat) : List UInt8 :=
  (List.range n).map fun k => byteAt blocks din (off + k)

theorem contentOf_split (blocks : Nat → Block) (din : Dinode) {off n m : Nat} (short : m ≤ n) :
    contentOf blocks din off n =
      contentOf blocks din off m ++ contentOf blocks din (off + m) (n - m) := by
  have sum : n = m + (n - m) := by omega
  rw [contentOf, sum, List.range_add, List.map_append, List.map_map]
  simp [contentOf, Function.comp_apply, Nat.add_assoc]

/-- The loop of `readi` gives the content it reads, and changes nothing. -/
theorem readiLoop_spec {fuel off n : Nat} (enough : n ≤ fuel)
    (flight : Flight s i count) (inside : blocksOf (off + n) ≤ count) :
    Spec allowed (readiLoop i fuel off n) s fun bytes s' =>
      bytes = contentOf s.blocks (s.icache i).din off n ∧ s' = s := by
  induction fuel generalizing off n with
  | zero =>
    have none : n = 0 := by omega
    subst none
    exact Spec.pure ⟨rfl, rfl⟩
  | succ fuel ih =>
    unfold readiLoop
    split
    · rename_i none
      subst none
      exact Spec.pure ⟨rfl, rfl⟩
    have below : off / BSIZE < count := by
      have first : off / BSIZE < blocksOf (off + n) := div_lt_blocksOf (by omega)
      omega
    have bound := flight.shaped.bound
    have had := (flight.shaped.data _ (by omega)).mpr below
    rw [← owner_self flight.allocated] at had
    refine Spec.bind (bmap_spec (fun none => (had none).elim) flight.owned flight.allocated
      (by omega)) ?_
    intro addr middle mapped
    have unchanged := mapped.idle had
    subst unchanged
    have here := mapped.here
    rw [owner_self flight.allocated] at here
    refine Spec.bind_get ?_
    have round : min n (BSIZE - off % BSIZE) ≤ n := Nat.min_le_left _ _
    have positive : 0 < BSIZE - off % BSIZE := by
      simp only [BSIZE]
      omega
    have whole : off + min n (BSIZE - off % BSIZE) + (n - min n (BSIZE - off % BSIZE)) = off + n :=
      by
      omega
    refine Spec.bind (ih (by omega) (by rwa [whole])) ?_
    rintro rest after ⟨tail, rfl⟩
    refine Spec.pure ⟨?_, rfl⟩
    rw [contentOf_split _ _ round, tail]
    congr 1
    refine List.map_congr_left fun k member => ?_
    have small := List.mem_range.mp member
    obtain ⟨block, offset⟩ := @block_of_inside off (off + k) n (by omega) (by omega)
    rw [byteAt, block, here, offset, Nat.add_sub_cancel_left]

end Loops

end Xv6.Fs
