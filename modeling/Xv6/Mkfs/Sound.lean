import Xv6.Mkfs

/- The image of mkfs is one that the kernel could have made: appending to an inode of
the image is what writei does in a kernel that holds the inode, with the blocks below
`freeblock` marked. -/
namespace Xv6.Mkfs

open Fs CString Ownership

variable {files : List Source} {j inum : Nat}

/-- A kernel with the image, and with inode `X` of it in slot 0, as `din`. -/
def Image.hold (im : Image) (X : Nat) (din : Dinode) : State :=
  (im.boot fun _ => none).setSlot 0 ⟨ROOTDEV, X, 1, none, true, din⟩

/-- The blocks that were not handed out are zero. -/
structure Fresh (im : Image) : Prop where
  zero : ∀ b, im.freeblock ≤ b → im.blocks b = fun _ => 0
  reserved : nmeta ≤ im.freeblock

section Block

variable {im : Image} {X : Nat} {din : Dinode} {n x : Nat}

theorem hold_slot (im : Image) (X : Nat) (din : Dinode) :
    (im.hold X din).icache 0 = ⟨ROOTDEV, X, 1, none, true, din⟩ := setSlot_self _ _ _

theorem hold_putDin (im : Image) (X : Nat) (din din' : Dinode) :
    (im.hold X din).putDin 0 din' = im.hold X din' := by
  exact setSlot_setSlot _ _ _ _

theorem hold_claimBlock (fresh : Fresh im) :
    ((im.hold X din).claimBlock im.freeblock).relog [] =
      { im with freeblock := im.freeblock + 1 }.hold X din := by
  have blocks : Function.update im.blocks im.freeblock (fun _ => 0) = im.blocks := by
    rw [← fresh.zero im.freeblock (Nat.le_refl _), Function.update_eq_self]
  have bits : Function.update (bitmap im) im.freeblock true =
      bitmap { im with freeblock := im.freeblock + 1 } := by
    funext b
    simp only [bitmap, Function.update_apply]
    grind
  change { im.hold X din with
    bitmap := Function.update (bitmap im) im.freeblock true
    blocks := Function.update im.blocks im.freeblock fun _ => 0 } = _
  rw [blocks, bits]
  rfl

theorem bitmap_freeblock (im : Image) : bitmap im im.freeblock = false := by
  simp [bitmap]

/-- What a step of the image did: block `n` of the inode is at `x`. -/
structure Placed (im im' : Image) (X : Nat) (din din' : Dinode) (n x : Nat) : Prop where
  mapped : Mapped (im.hold X din) (im'.hold X din') 0 n x
  fresh : Fresh im'
  grows : im.freeblock ≤ im'.freeblock
  dinodes : im'.dinodes = im.dinodes
  freeinode : im'.freeinode = im.freeinode

variable {im' : Image} {din' : Dinode}

theorem entry_placed (fresh : Fresh im)
    (owned : Owned im.blocks (tableOf (im.hold X din) 0) (bitmap im)) (allocated : din.type ≠ .free)
    (lower : NDIRECT ≤ n) (upper : n < MAXFILE) (some : din.addrs NDIRECT ≠ 0)
    (result : iappendBlock.entry im din (n - NDIRECT) = (im', din', x))
    (room : im'.freeblock ≤ FSSIZE) : Placed im im' X din din' n x := by
  have typed : (tableOf (im.hold X din) 0 ((im.hold X din).icache 0).inum).type ≠ .free := by
    rw [tableOf_self, hold_slot]
    exact allocated
  have pointer : ((im.hold X din).icache 0).din.addrs NDIRECT = din.addrs NDIRECT := by
    rw [hold_slot]
  unfold iappendBlock.entry at result
  dsimp only at result
  split at result
  · rename_i none
    cases result
    have claims := (claims_entry owned typed (b := im.freeblock)
      (show im.freeblock + 1 ≤ FSSIZE from room)
      (bitmap_freeblock im) lower upper pointer some none).relog []
    change Claims _ { ((im.hold X din).claimBlock im.freeblock).relog [] with
      blocks := Function.update (((im.hold X din).claimBlock im.freeblock).relog []).blocks
        (din.addrs NDIRECT)
        (set32 ((((im.hold X din).claimBlock im.freeblock).relog []).blocks (din.addrs NDIRECT))
          (n - NDIRECT) im.freeblock) } 0 n _ at claims
    rw [hold_claimBlock fresh] at claims
    refine ⟨claims.mapped ?_, ⟨fun b beyond => ?_, ?_⟩, Nat.le_succ _, rfl, rfl⟩
    · simp only [lower, or_true, iff_true]
      change ((im.hold X din).icache 0).din.addrs NDIRECT ≠ 0
      rwa [pointer]
    · have holder : owner im.blocks (tableOf (im.hold X din) 0) (((im.hold X din).icache 0).inum,
          MAXFILE) = din.addrs NDIRECT := by
        rw [owner_of_allocated typed, blockAddr_indirect, tableOf_self, pointer]
      have marked : bitmap im (owner im.blocks (tableOf (im.hold X din) 0)
          (((im.hold X din).icache 0).inum, MAXFILE)) = true := owned.marked (by rwa [holder])
      rw [holder, bitmap, decide_eq_true_eq] at marked
      change im.freeblock + 1 ≤ b at beyond
      change Function.update im.blocks (din.addrs NDIRECT) _ b = _
      rw [Function.update_of_ne (by omega)]
      exact fresh.zero b (by omega)
    · exact Nat.le_succ_of_le fresh.reserved
  · rename_i found
    cases result
    refine ⟨Mapped.found owned ?_ found fun _ => by rwa [pointer], fresh, Nat.le_refl _, rfl, rfl⟩
    rw [owner_of_allocated typed, blockAddr_entry lower upper (by rwa [tableOf_self, pointer]),
      tableOf_self, pointer]
    rfl

theorem iappendBlock_placed (fresh : Fresh im)
    (owned : Owned im.blocks (tableOf (im.hold X din) 0) (bitmap im)) (allocated : din.type ≠ .free)
    (upper : n < MAXFILE) (result : iappendBlock im din n = (im', din', x))
    (room : im'.freeblock ≤ FSSIZE) : Placed im im' X din din' n x := by
  have typed : (tableOf (im.hold X din) 0 ((im.hold X din).icache 0).inum).type ≠ .free := by
    rw [tableOf_self, hold_slot]
    exact allocated
  have same : ((im.hold X din).icache 0).din = din := by rw [hold_slot]
  have later : Fresh { im with freeblock := im.freeblock + 1 } :=
    ⟨fun b beyond => fresh.zero b (Nat.le_of_succ_le beyond), Nat.le_succ_of_le fresh.reserved⟩
  unfold iappendBlock at result
  split at result
  · rename_i direct
    split at result
    · cases result
      have claims := (claims_direct owned typed (b := im.freeblock) room
        (bitmap_freeblock im) direct (by rwa [same])).relog []
      change Claims _ ((((im.hold X din).claimBlock im.freeblock).relog []).putDin 0 _) 0
        n _ at claims
      rw [hold_claimBlock fresh, hold_putDin, same] at claims
      refine ⟨claims.mapped ?_, later, Nat.le_succ _, rfl, rfl⟩
      have small : ¬ NDIRECT ≤ n := by omega
      rw [hold_slot, hold_slot]
      simp only [small, or_false]
      rw [setAddr_of_ne _ _ (by omega)]
    · rename_i found
      cases result
      refine ⟨Mapped.found owned ?_ found fun _ => by omega, fresh, Nat.le_refl _, rfl, rfl⟩
      rw [owner_of_allocated typed, blockAddr_direct direct, tableOf_self, same]
  · rename_i large
    split at result
    · rename_i none
      have more : im.freeblock + 1 ≤ im'.freeblock := by
        unfold iappendBlock.entry at result
        grind
      have claims := (claims_indirect owned typed (b := im.freeblock) (by omega)
        (bitmap_freeblock im) (by rwa [same])).relog []
      change Claims _ ((((im.hold X din).claimBlock im.freeblock).relog []).putDin 0 _) 0 MAXFILE
        _ at claims
      rw [hold_claimBlock fresh, hold_putDin, same] at claims
      have placed := entry_placed later claims.owned
        (show (din.setAddr NDIRECT im.freeblock).type ≠ .free
        from allocated) (by omega) upper (by exact claims.some) result room
      refine ⟨claims.mapped_entry placed.mapped ?_ (by omega) upper, placed.fresh, by omega,
        placed.dinodes, placed.freeinode⟩
      rw [owner_of_allocated typed, tableOf_self, same, blockAddr, if_neg large, if_pos upper,
        if_pos none]
    · grind [entry_placed]

end Block

section Loop

variable {X : Nat} {im im' im1 : Image} {din din' din1 : Dinode} {n x off count : Nat}
  {fuel off' : Nat} {p : List UInt8}

/-- What a run of the loop of `iappend` did to the image. -/
structure Appended (im im' : Image) (X : Nat) (din din' : Dinode) (off : Nat) (p : List UInt8) :
    Prop where
  wrote : Wrote (im.hold X din) (im'.hold X din') 0 off p
  fresh : Fresh im'
  grows : im.freeblock ≤ im'.freeblock
  dinodes : im'.dinodes = im.dinodes
  freeinode : im'.freeinode = im.freeinode

theorem iappendBlock_grows
    (result : iappendBlock im din n = (im', din', x)) : im.freeblock ≤ im'.freeblock := by
  unfold iappendBlock iappendBlock.entry at result
  dsimp only at result
  split at result
  · grind
  · grind

theorem iappendLoop_grows (result : iappendLoop fuel im din off p = some (im', din', off')) :
    im.freeblock ≤ im'.freeblock := by
  induction fuel generalizing im din off p with
  | zero =>
    cases result
    exact Nat.le_refl _
  | succ fuel ih =>
    rw [iappendLoop] at result
    split at result
    · cases result
      exact Nat.le_refl _
    · split at result
      · rcases block : iappendBlock im din (off / BSIZE) with ⟨im1, din1, x⟩
        rw [block] at result
        have later := ih result
        exact Nat.le_trans (iappendBlock_grows block) later
      · cases result

/-- The loop is at `off` of an inode with `count` blocks. -/
structure Ready (im : Image) (X : Nat) (din : Dinode) (off count : Nat) : Prop where
  fresh : Fresh im
  flight : Flight (im.hold X din) 0 count
  start : blocksOf off ≤ count

theorem Ready.allocated (ready : Ready im X din off count) : din.type ≠ .free := by
  have typed := ready.flight.allocated
  rwa [hold_slot] at typed

theorem Ready.placed (ready : Ready im X din off count)
    (inside : off / BSIZE < MAXFILE) (block : iappendBlock im din (off / BSIZE) = (im1, din1, x))
    (room : im1.freeblock ≤ FSSIZE) : Placed im im1 X din din1 (off / BSIZE) x :=
  iappendBlock_placed ready.fresh ready.flight.owned ready.allocated inside block room

theorem Placed.here (placed : Placed im im1 X din din1 n x) :
    owner im1.blocks (tableOf (im1.hold X din1) 0) (((im1.hold X din1).icache 0).inum, n) = x := by
  exact placed.mapped.here

theorem Placed.below (placed : Placed im im1 X din din1 n x) : x < im1.freeblock := by
  have marked : bitmap im1 (owner im1.blocks (tableOf (im1.hold X din1) 0)
      (((im1.hold X din1).icache 0).inum, n)) = true :=
    placed.mapped.owned.marked fun zero => placed.mapped.some (placed.here.symm.trans zero)
  rwa [placed.here, bitmap, decide_eq_true_eq] at marked

/-- A round of the loop fills the block up to its end, or takes what is left. -/
theorem Ready.round (ready : Ready im X din off count) (inside : off / BSIZE < MAXFILE)
    (placed : Placed im im1 X din din1 (off / BSIZE) x) (p : List UInt8) :
    Ready { im1 with blocks := Function.update im1.blocks x (overwrite (im1.blocks x) (off % BSIZE)
      (p.take (min p.length (BSIZE - off % BSIZE)))) } X din1
      (off + min p.length (BSIZE - off % BSIZE)) (max count (off / BSIZE + 1)) := by
  refine ⟨⟨fun b beyond => ?_, placed.fresh.reserved⟩, ?_, blocksOf_round⟩
  · have below := placed.below
    change im1.freeblock ≤ b at beyond
    change Function.update im1.blocks x _ b = _
    rw [Function.update_of_ne (by omega)]
    exact placed.fresh.zero b beyond
  · exact ((ready.flight.mapped placed.mapped (div_le_blocksOf.trans ready.start) inside).writeBlock
      inside placed.here (off % BSIZE) (p.take (min p.length (BSIZE - off % BSIZE)))).relog []

theorem Ready.idle (ready : Ready im X din off count) :
    Appended im im X din din off [] ∧ Flight (im.hold X din) 0
      (max count (blocksOf (off + 0))) := by
  refine ⟨⟨Wrote.refl _ _ _, ready.fresh, Nat.le_refl _, rfl, rfl⟩, ?_⟩
  rw [Nat.add_zero, Nat.max_eq_left ready.start]
  exact ready.flight

theorem iappend_width (off : Nat) : (off / BSIZE + 1) * BSIZE - off = BSIZE - off % BSIZE := by
  simp only [BSIZE]
  omega

theorem iappend_shift (off : Nat) : off - off / BSIZE * BSIZE = off % BSIZE := by
  simp only [BSIZE]
  omega

theorem iappendLoop_succ (fuel : Nat) (im : Image) (din : Dinode) (off : Nat) (p : List UInt8) :
    iappendLoop (fuel + 1) im din off p =
      if p.length = 0 then some (im, din, off)
      else if off / BSIZE < MAXFILE then
        (some (iappendBlock im din (off / BSIZE))).bind fun (im, din, x) =>
          let n1 := min p.length (BSIZE - off % BSIZE)
          iappendLoop fuel
            { im with blocks := Function.update im.blocks x (overwrite (im.blocks x) (off % BSIZE)
            (p.take n1)) } din (off + n1) (p.drop n1)
      else none := by
  rw [iappendLoop, iappend_width, iappend_shift]
  rfl

/-- The loop of `iappend` is the loop of `writei`. -/
theorem iappendLoop_appended (enough : p.length ≤ fuel) (ready : Ready im X din off count)
    (result : iappendLoop fuel im din off p = some (im', din', off'))
    (room : im'.freeblock ≤ FSSIZE) :
    off' = off + p.length ∧ Appended im im' X din din' off p ∧
      Flight (im'.hold X din') 0 (max count (blocksOf (off + p.length))) := by
  induction fuel generalizing im din off p count with
  | zero =>
    have none : p = [] := List.length_eq_zero_iff.mp (by omega)
    subst none
    cases result
    exact ⟨rfl, ready.idle⟩
  | succ fuel ih =>
    rw [iappendLoop] at result
    split at result
    · rename_i none
      have none : p = [] := List.length_eq_zero_iff.mp none
      subst none
      cases result
      exact ⟨rfl, ready.idle⟩
    · split at result
      · rename_i inside
        rcases block : iappendBlock im din (off / BSIZE) with ⟨im1, din1, x⟩
        rw [block] at result
        rw [iappend_width, iappend_shift] at result
        have more := iappendLoop_grows result
        have placed := ready.placed inside block (Nat.le_trans more room)
        have positive : 0 < BSIZE - off % BSIZE := by
          simp only [BSIZE]
          omega
        have round : min p.length (BSIZE - off % BSIZE) ≤ p.length := Nat.min_le_left _ _
        have wrote : Wrote (im.hold X din) _ 0 off (p.take (min p.length (BSIZE - off % BSIZE))) :=
          (placed.mapped.wrote ready.flight inside (by rw [List.length_take]; omega)
            (by rw [List.length_take]; omega)).relog []
        have rest : (p.drop (min p.length (BSIZE - off % BSIZE))).length =
            p.length - min p.length (BSIZE - off % BSIZE) := List.length_drop
        obtain ⟨ends, later, last⟩ := ih (by omega) (ready.round inside placed p) result
        have whole : off + min p.length (BSIZE - off % BSIZE) +
            (p.drop (min p.length (BSIZE - off % BSIZE))).length = off + p.length := by omega
        rw [whole] at ends last
        rw [max_blocksOf (by omega)] at last
        refine ⟨ends, ⟨Wrote.append round wrote later.wrote, later.fresh,
          placed.grows.trans later.grows,
          later.dinodes.trans placed.dinodes, later.freeinode.trans placed.freeinode⟩, last⟩
      · cases result

end Loop

section Append

variable {im im' : Image} {X : Nat} {p : List UInt8}

structure ImageOk (im : Image) : Prop where
  fresh : Fresh im
  sane : Sane clean (im.boot fun _ => none)

/-- The caches of a kernel that starts hold nothing, so only the disk counts. -/
theorem sane_boot {s : State} (sane : Sane clean s) (dinodes : im.dinodes = s.dinodes)
    (blocks : im.blocks = s.blocks) (bits : bitmap im = s.bitmap) (devsw : Int → Option Device) :
    Sane clean (im.boot devsw) := by
  refine ⟨fun i => ?_, ?_, ?_, ?_⟩
  · exact slotOk_unused rfl rfl
  · change Owned im.blocks im.dinodes (bitmap im)
    rw [dinodes, blocks, bits]
    exact sane.owned
  · change ∀ j, (im.dinodes j).type ≠ .free → Sized im.blocks (im.dinodes j)
    rw [dinodes, blocks]
    exact sane.sized
  · change ∀ j, (im.dinodes j).type ≠ .free → 0 < j ∧ j < NINODES
    rw [dinodes]
    exact sane.numbered

theorem ImageOk.hold (ok : ImageOk im) (allocated : (im.dinodes X).type ≠ .free) :
    Sane clean (im.hold X (im.dinodes X)) := by
  refine ok.sane.keepSlot ⟨fun _ => rfl, fun _ j _ used => ?_, fun _ _ _ => rfl, fun taken => ?_,
    fun _ _ => allocated, fun taken => ?_, fun taken => (taken rfl).elim⟩
  · exact (Nat.lt_irrefl 0 used).elim
  · exact Bool.noConfusion taken
  · exact Bool.noConfusion taken

theorem ImageOk.ready (ok : ImageOk im) (allocated : (im.dinodes X).type ≠ .free) :
    Ready im X (im.dinodes X) (im.dinodes X).size (blocksOf (im.dinodes X).size) := by
  have slot : (im.hold X (im.dinodes X)).icache 0 = ⟨ROOTDEV, X, 1, none, true, im.dinodes X⟩ :=
    hold_slot _ _ _
  have flight := (ok.hold allocated).flight (i := 0) (by exact Nat.one_pos) (by rw [slot]) rfl
  exact ⟨ok.fresh, flight, Nat.le_refl _⟩

/-- The bytes `p` were appended to inode `X`. -/
structure Grown (im im' : Image) (X : Nat) (p : List UInt8) : Prop where
  others : ∀ j, j ≠ X → im'.dinodes j = im.dinodes j
  dinode : im'.dinodes X = { im.dinodes X with
    addrs := (im'.dinodes X).addrs
    size := (im.dinodes X).size + p.length }
  intact : ∀ j, j ≠ X → (im.dinodes j).type ≠ .free → Intact im.blocks im'.blocks (im.dinodes j)
  inside : ∀ k, (im.dinodes X).size ≤ k → k < (im.dinodes X).size + p.length →
    byteAt im'.blocks (im'.dinodes X) k = p.getD (k - (im.dinodes X).size) 0
  outside : ∀ k, k < (im.dinodes X).size →
    byteAt im'.blocks (im'.dinodes X) k = byteAt im.blocks (im.dinodes X) k
  later : ∀ k, (im.dinodes X).size + p.length ≤ k → k / BSIZE < blocksOf (im.dinodes X).size →
    byteAt im'.blocks (im'.dinodes X) k = byteAt im.blocks (im.dinodes X) k
  fresh : ∀ k, (im.dinodes X).size + p.length ≤ k → blocksOf (im.dinodes X).size ≤ k / BSIZE →
    k / BSIZE < blocksOf ((im.dinodes X).size + p.length) → byteAt im'.blocks (im'.dinodes X) k = 0
  freeinode : im'.freeinode = im.freeinode

/-- `iappend` appends. -/
theorem iappend_grown (ok : ImageOk im) (allocated : (im.dinodes X).type ≠ .free)
    (result : iappend im X p = some im') (room : im'.freeblock ≤ FSSIZE) :
    ImageOk im' ∧ Grown im im' X p := by
  rw [iappend, Option.map_eq_some_iff] at result
  obtain ⟨⟨im1, din1, off⟩, looped, rfl⟩ := result
  have sane := ok.hold allocated
  have slot : (im.hold X (im.dinodes X)).icache 0 = ⟨ROOTDEV, X, 1, none, true, im.dinodes X⟩ :=
    hold_slot _ _ _
  have used : 0 < ((im.hold X (im.dinodes X)).icache 0).ref := by exact Nat.one_pos
  have valid : ((im.hold X (im.dinodes X)).icache 0).valid = true := by rw [slot]
  have flight := sane.flight used valid rfl
  have sized := sane.sized X allocated
  have size : ((im.hold X (im.dinodes X)).icache 0).din.size = (im.dinodes X).size := by rw [slot]
  rw [size] at flight
  obtain ⟨ends, appended, reached⟩ :=
    iappendLoop_appended (Nat.le_refl _) ⟨ok.fresh, flight, Nat.le_refl _⟩ looped room
  have wrote := appended.wrote
  have slot1 : (im1.hold X din1).icache 0 = ⟨ROOTDEV, X, 1, none, true, din1⟩ := hold_slot _ _ _
  have fits : (im.dinodes X).size + p.length ≤ MAXFILE * BSIZE := by
    by_cases empty : p.length = 0
    · have bounded : (im.dinodes X).size ≤ MAXFILE * BSIZE := sized.bounded
      omega
    · have last := (wrote.some ((im.dinodes X).size + p.length - 1) (by omega) (by omega)).1
      grind
  obtain ⟨kept, stored⟩ := wrote.stored sane used valid rfl (by rw [size]) fits
    (by rwa [size]) _ rfl
  rw [slot1, size] at kept stored
  generalize ended : (if 0 < p.length ∧ (im.dinodes X).size < (im.dinodes X).size + p.length then
    (im1.hold X din1).commit 0 { din1 with size := (im.dinodes X).size + p.length }
    else im1.hold X din1) = final at kept stored
  have blocks : final.blocks = im1.blocks := by
    rw [← ended]
    split <;> rfl
  have bits : final.bitmap = bitmap im1 := by
    rw [← ended]
    split <;> rfl
  have table : final.dinodes = Function.update im1.dinodes X { din1 with size := off } := by
    rw [← ended, ends]
    split
    · rfl
    have empty : p.length = 0 := by omega
    have same := (wrote.idle fun k lower upper => by omega).1
    have din : din1 = im.dinodes X := by
      have equal := congrArg Inode.din (congrFun same 0)
      rwa [slot1, slot] at equal
    change im1.dinodes = _
    rw [din, empty, Nat.add_zero, appended.dinodes, Function.update_eq_self]
  have here : (final.icache 0).din = { din1 with size := off } := by
    have equal := congrFun stored.written.dinodes X
    rw [slot, Function.update_self, table, Function.update_self] at equal
    exact equal.symm
  have inum : ((im.hold X (im.dinodes X)).icache 0).inum = X := by rw [slot]
  have byte : ∀ k, byteAt im1.blocks { din1 with size := off } k = byteAt im1.blocks din1 k :=
    fun _ => rfl
  have shape : Shaped im.blocks (im.dinodes X) (blocksOf (im.dinodes X).size) := sized.shaped
  have bound := shape.bound
  have reach : ∀ n, n < blocksOf ((im.dinodes X).size + p.length) → n < MAXFILE := by
    intro n below
    rw [lt_blocksOf] at below
    have whole : n * BSIZE < MAXFILE * BSIZE := by omega
    exact Nat.lt_of_mul_lt_mul_right whole
  have booted : Sane clean (Image.boot { im1 with
      dinodes := Function.update im1.dinodes X { din1 with size := off } } fun _ => none) := by
    refine sane_boot kept ?_ ?_ ?_ _
    · exact table.symm
    · exact blocks.symm
    · exact bits.symm
  refine ⟨⟨⟨appended.fresh.zero, appended.fresh.reserved⟩, booted⟩, fun j apart => ?_, ?_, ?_,
    ?_, ?_, ?_, ?_, appended.freeinode⟩
  · change Function.update im1.dinodes X _ j = _
    rw [Function.update_of_ne apart, appended.dinodes]
  · dsimp only
    rw [Function.update_self]
    have din := stored.din
    grind
  · intro j apart typed
    have foreign := stored.foreign j (by rwa [inum]) typed
    rwa [blocks] at foreign
  · intro k lower upper
    change byteAt im1.blocks (Function.update im1.dinodes X _ X) k = _
    rw [Function.update_self, byte]
    have inside := wrote.inside k lower upper
    rwa [slot1] at inside
  · intro k below
    change byteAt im1.blocks (Function.update im1.dinodes X _ X) k = _
    rw [Function.update_self, byte]
    have block := div_lt_blocksOf below
    have outside := wrote.outside k (Or.inl below) (by omega)
      (by exact (shape.data _ (by omega)).mpr block)
    rwa [slot1, slot] at outside
  · intro k beyond block
    change byteAt im1.blocks (Function.update im1.dinodes X _ X) k = _
    rw [Function.update_self, byte]
    have outside := wrote.outside k (Or.inr beyond) (by omega)
      (by exact (shape.data _ (by omega)).mpr block)
    rwa [slot1, slot] at outside
  · intro k beyond lower upper
    change byteAt im1.blocks (Function.update im1.dinodes X _ X) k = _
    rw [Function.update_self, byte]
    have none : blockAddr im.blocks (im.dinodes X) (k / BSIZE) = 0 := by
      by_contra some
      have early := (shape.data _ (reach _ upper)).mp some
      omega
    have some := (reached.shaped.data _ (reach _ upper)).mpr (by omega)
    have fresh := wrote.fresh k (Or.inr beyond) (reach _ upper) (by exact none) some
    rwa [slot1] at fresh

/-- The content of the inode is longer by the bytes. -/
theorem Grown.content (grown : Grown im im' X p) :
    contentOf im'.blocks (im'.dinodes X) 0 (im'.dinodes X).size =
      contentOf im.blocks (im.dinodes X) 0 (im.dinodes X).size ++ p := by
  have size : (im'.dinodes X).size = (im.dinodes X).size + p.length := by rw [grown.dinode]
  rw [size, contentOf_split _ _ (Nat.le_add_right (im.dinodes X).size p.length), Nat.zero_add,
    Nat.add_sub_cancel_left]
  rw [contentOf_congr fun k _ below => grown.outside k (by omega), contentOf_eq grown.inside]

end Append

section Build

variable {im im' : Image} {ents : List Dirent} {de : Dirent} {data : Nat → List UInt8} {X : Nat}
  {p : List UInt8}

/-- The image with the root directory `ents`, and a file for each other inode handed out, with
its content. -/
structure Built (im : Image) (ents : List Dirent) (data : Nat → List UInt8) : Prop where
  ok : ImageOk im
  unused : ∀ j, im.freeinode ≤ j → (im.dinodes j).type = .free
  started : ROOTINO < im.freeinode
  files : ∀ j, ROOTINO < j → j < im.freeinode →
    (im.dinodes j).type = .file ∧ (im.dinodes j).nlink = 1
  type : (im.dinodes ROOTINO).type = .dir
  nlink : (im.dinodes ROOTINO).nlink = 1
  size : (im.dinodes ROOTINO).size = DIRENTSIZE * ents.length
  entries : entriesOf im.blocks (im.dinodes ROOTINO) = ents
  rest : ents ≠ [] → ∀ k, DIRENTSIZE * ents.length ≤ k → k < BSIZE →
    byteAt im.blocks (im.dinodes ROOTINO) k = 0
  contents : ∀ j, ROOTINO < j → j < im.freeinode →
    contentOf im.blocks (im.dinodes j) 0 (im.dinodes j).size = data j
  mode : ∀ j, (im.dinodes j).mode = 0

/-- Appending to one file leaves the others as they are. -/
theorem Built.content_other (built : Built im ents data) (grown : Grown im im' X p)
    (inside : ROOTINO < j) (below : j < im.freeinode) (apart : j ≠ X) :
    contentOf im'.blocks (im'.dinodes j) 0 (im'.dinodes j).size = data j := by
  have typed : (im.dinodes j).type ≠ .free := by
    rw [(built.files j inside below).1]
    decide
  have sized : Sized im.blocks (im.dinodes j) := built.ok.sane.sized j typed
  rw [grown.others j apart, ← built.contents j inside below]
  refine contentOf_congr fun k _ small => ?_
  exact sized.byteAt (grown.intact j apart typed) (div_lt_blocksOf (by omega))

theorem Grown.mode (grown : Grown im im' X p) (before : ∀ j, (im.dinodes j).mode = 0)
    (j : Nat) : (im'.dinodes j).mode = 0 := by
  by_cases here : j = X
  · rw [here, grown.dinode]
    exact before X
  · rw [grown.others j here]
    exact before j

/-- Appending to another inode leaves the root directory alone. -/
theorem Built.append (built : Built im ents data) (inside : ROOTINO < X) (below : X < im.freeinode)
    (result : iappend im X p = some im') (room : im'.freeblock ≤ FSSIZE) :
    Built im' ents (Function.update data X (data X ++ p)) := by
  have file := built.files X inside below
  obtain ⟨ok, grown⟩ := iappend_grown built.ok (by rw [file.1]; decide) result room
  have apart : ROOTINO ≠ X := by omega
  have root := grown.others ROOTINO apart
  have typed : (im.dinodes ROOTINO).type ≠ .free := by rw [built.type]; decide
  have intact := grown.intact ROOTINO apart typed
  have sized : Sized im.blocks (im.dinodes ROOTINO) := built.ok.sane.sized ROOTINO typed
  refine ⟨ok, ?_, ?_, ?_, ?_, ?_, ?_, ?_, ?_, ?_, grown.mode built.mode⟩
  · intro j beyond
    rw [grown.freeinode] at beyond
    rw [grown.others j (by omega)]
    exact built.unused j beyond
  · rw [grown.freeinode]
    exact built.started
  · intro j lower upper
    rw [grown.freeinode] at upper
    by_cases here : j = X
    · subst here
      rw [grown.dinode]
      exact file
    · rw [grown.others j here]
      exact built.files j lower upper
  · rw [root]
    exact built.type
  · rw [root]
    exact built.nlink
  · rw [root]
    exact built.size
  · grind [entriesOf_congr, Sized.byteAt, div_lt_blocksOf, entries]
  · intro some k lower upper
    have nonempty : 0 < ents.length := List.length_pos_iff.mpr some
    rw [root, sized.byteAt intact]
    · exact built.rest some k lower upper
    · rw [Nat.div_eq_of_lt upper, built.size]
      exact blocksOf_pos (Nat.mul_pos (by decide) nonempty)
  · intro j lower upper
    rw [grown.freeinode] at upper
    grind [Function.update_self, Grown.content, contents, Function.update_of_ne, content_other]

/-- Appending an entry to the root directory. -/
theorem Built.entry (built : Built im ents data) (result : iappend im ROOTINO de.bytes = some im')
    (room : im'.freeblock ≤ FSSIZE) (fits : de.inum < 2 ^ 16) (long : de.name.length = DIRSIZ) :
    Built im' (ents ++ [de]) data := by
  obtain ⟨ok, grown⟩ := iappend_grown built.ok (by rw [built.type]; decide) result room
  have width : de.bytes.length = DIRENTSIZE := by
    simp only [Dirent.bytes, List.length_cons, long, DIRENTSIZE]
    omega
  have inside := grown.inside
  have later := grown.later
  have fresh := grown.fresh
  rw [width, built.size] at inside later fresh
  have size : (im'.dinodes ROOTINO).size = DIRENTSIZE * (ents.length + 1) := by
    rw [grown.dinode]
    simp only [built.size, width, Nat.mul_succ]
  refine ⟨ok, ?_, ?_, ?_, ?_, ?_, ?_, ?_, ?_, ?_, grown.mode built.mode⟩
  · intro j beyond
    rw [grown.freeinode] at beyond
    have started := built.started
    rw [grown.others j (by omega)]
    exact built.unused j beyond
  · rw [grown.freeinode]
    exact built.started
  · intro j lower upper
    rw [grown.freeinode] at upper
    rw [grown.others j (by omega)]
    exact built.files j lower upper
  · rw [grown.dinode]
    exact built.type
  · rw [grown.dinode]
    exact built.nlink
  · rw [size, List.length_append, List.length_singleton]
  · rw [entriesOf_push built.size size grown.outside ?_ fits, built.entries]
    rw [← width]
    refine contentOf_eq fun k lower upper => ?_
    grind
  · intro _ k lower upper
    rw [List.length_append, List.length_singleton, Nat.mul_succ] at lower
    have first : k / BSIZE = 0 := Nat.div_eq_of_lt upper
    by_cases some : ents = []
    · refine fresh k lower ?_ ?_
      · rw [some, List.length_nil]
        exact Nat.zero_le _
      · rw [first]
        exact blocksOf_pos (Nat.add_pos_right _ (by decide))
    · rw [later k lower]
      · exact built.rest some k (by omega) upper
      · have nonempty : 0 < ents.length := List.length_pos_iff.mpr some
        rw [first]
        exact blocksOf_pos (Nat.mul_pos (by decide) nonempty)
  · grind [Grown.freeinode, content_other]

/-- A new inode for a file. -/
theorem Built.alloc (built : Built im ents data) (few : im.freeinode < NINODES) :
    Built (ialloc im .file) ents (Function.update data im.freeinode []) := by
  have started := built.started
  have here : (ialloc im .file).dinodes im.freeinode =
    { Dinode.zero with type := .file, nlink := 1 } :=
    Function.update_self _ _ _
  have there : ∀ j, j ≠ im.freeinode → (ialloc im .file).dinodes j = im.dinodes j :=
    fun j apart => Function.update_of_ne apart _ _
  have root := there ROOTINO (by omega)
  refine ⟨⟨⟨built.ok.fresh.zero, built.ok.fresh.reserved⟩, ?_⟩, ?_, ?_, ?_, ?_, ?_, ?_, ?_,
    ?_, ?_, ?_⟩
  · exact (built.ok.sane.allocInode (built.unused _ (Nat.le_refl _)) (by omega)
      few rfl rfl).relog []
  · intro j beyond
    change im.freeinode + 1 ≤ j at beyond
    grind [unused]
  · exact Nat.lt_succ_of_lt started
  · intro j lower upper
    change j < im.freeinode + 1 at upper
    by_cases new : j = im.freeinode
    · grind
    · grind [files]
  · rw [root]
    exact built.type
  · rw [root]
    exact built.nlink
  · rw [root]
    exact built.size
  · rw [root]
    exact built.entries
  · rw [root]
    exact built.rest
  · intro j lower upper
    change j < im.freeinode + 1 at upper
    by_cases new : j = im.freeinode
    · subst new
      rw [here, Function.update_self]
      rfl
    · rw [there j new, Function.update_of_ne new]
      exact built.contents j lower (by omega)
  · intro j
    by_cases new : j = im.freeinode
    · subst new
      rw [here]
      rfl
    · rw [there j new]
      exact built.mode j

theorem iappend_grows (result : iappend im X p = some im') : im.freeblock ≤ im'.freeblock := by
  rw [iappend, Option.map_eq_some_iff] at result
  obtain ⟨⟨im1, din1, off⟩, looped, rfl⟩ := result
  have grows := iappendLoop_grows looped
  exact grows

theorem iappends_grow {reads : List (List UInt8)}
    (result : Runs.run (fun im buf => iappend im X buf) im reads = some im') :
    im.freeblock ≤ im'.freeblock := by
  induction reads generalizing im with
  | nil =>
    cases result
    exact Nat.le_refl _
  | cons buf rest ih =>
    obtain ⟨next, taken, remaining⟩ := Runs.run_cons_some.mp result
    exact (iappend_grows taken).trans (ih remaining)

theorem Built.reads {reads : List (List UInt8)} (built : Built im ents data) (inside : ROOTINO < X)
    (below : X < im.freeinode)
    (result : Runs.run (fun im buf => iappend im X buf) im reads = some im')
    (room : im'.freeblock ≤ FSSIZE) :
    Built im' ents (Function.update data X (data X ++ reads.flatten)) ∧
      im'.freeinode = im.freeinode := by
  induction reads generalizing im data with
  | nil =>
    cases result
    rw [List.flatten_nil, List.append_nil, Function.update_eq_self]
    exact ⟨built, rfl⟩
  | cons buf rest ih =>
    obtain ⟨next, taken, remaining⟩ := Runs.run_cons_some.mp result
    have least := (iappends_grow remaining).trans room
    have file := built.files X inside below
    have grown := (iappend_grown built.ok (by rw [file.1]; decide) taken least).2
    obtain ⟨last, same⟩ := ih (built.append inside below taken least)
      (by rwa [grown.freeinode]) remaining
    rw [Function.update_self, Function.update_idem, List.append_assoc] at last
    exact ⟨last, same.trans grown.freeinode⟩

/-- The entry of a file that gets the inode `inum`. -/
def fileEntry (inum : Nat) (file : Source) : Dirent :=
  ⟨inum, strncpy (targetName file.name) DIRSIZ⟩

/-- The entries of files that get the inodes from `inum` on. -/
def fileEntries (inum : Nat) : List Source → List Dirent
  | [] => []
  | file :: rest => fileEntry inum file :: fileEntries (inum + 1) rest

theorem addFile_grows {file : Source} (result : addFile im file = some im') :
    im.freeblock ≤ im'.freeblock := by
  rw [addFile] at result
  split at result
  · cases result
  · obtain ⟨middle, first, second⟩ := Option.bind_eq_some_iff.mp result
    have start := iappend_grows first
    exact start.trans (iappends_grow second)

theorem Built.file {file : Source} (built : Built im ents data) (few : im.freeinode < NINODES)
    (result : addFile im file = some im') (room : im'.freeblock ≤ FSSIZE) :
    Built im' (ents ++ [fileEntry im.freeinode file])
      (Function.update data im.freeinode file.reads.flatten) ∧
      im'.freeinode = im.freeinode + 1 := by
  rw [addFile] at result
  split at result
  · cases result
  obtain ⟨middle, first, second⟩ := Option.bind_eq_some_iff.mp result
  have new := built.alloc few
  have least := (iappends_grow second).trans room
  have grown := (iappend_grown new.ok (by rw [new.type]; decide) first least).2
  have small : im.freeinode < 2 ^ 16 := by
    have bound : NINODES < 2 ^ 16 := by decide
    omega
  have entry : Built middle (ents ++ [fileEntry im.freeinode file])
    (Function.update data im.freeinode []) :=
    new.entry first least small (strncpy_length _ _)
  have next : middle.freeinode = im.freeinode + 1 := grown.freeinode
  obtain ⟨last, same⟩ := entry.reads built.started (by omega) second room
  rw [Function.update_self, Function.update_idem, List.nil_append] at last
  exact ⟨last, same.trans next⟩

theorem addFiles_grow (result : Runs.run addFile im files = some im') :
    im.freeblock ≤ im'.freeblock := by
  induction files generalizing im with
  | nil =>
    cases result
    exact Nat.le_refl _
  | cons file rest ih =>
    obtain ⟨next, taken, remaining⟩ := Runs.run_cons_some.mp result
    exact (addFile_grows taken).trans (ih remaining)

theorem Built.run (built : Built im ents data)
    (few : im.freeinode + files.length ≤ NINODES) (result : Runs.run addFile im files = some im')
    (room : im'.freeblock ≤ FSSIZE) :
    ∃ data', Built im' (ents ++ fileEntries im.freeinode files) data' ∧
      im'.freeinode = im.freeinode + files.length ∧ (∀ j, j < im.freeinode → data' j = data j) ∧
      ∀ k file, files[k]? = some file → data' (im.freeinode + k) = file.reads.flatten := by
  induction files generalizing im ents data with
  | nil =>
    cases result
    grind [fileEntries]
  | cons file rest ih =>
    rw [List.length_cons] at few ⊢
    obtain ⟨next, taken, remaining⟩ := Runs.run_cons_some.mp result
    obtain ⟨middle, count⟩ := built.file (by omega) taken ((addFiles_grow remaining).trans room)
    obtain ⟨data', last, total, before, after⟩ := ih middle (by omega) remaining
    rw [count, List.append_assoc, List.singleton_append] at last
    refine ⟨data', last, by omega, fun j below => ?_, fun k source there => ?_⟩
    · rw [before j (by omega), Function.update_of_ne (by omega)]
    · cases k with
      | zero =>
        grind
      | succ k =>
        grind

/-- The zeroed disk with an empty root directory. -/
theorem built_root (data : Nat → List UInt8) : Built (ialloc blank .dir) [] data := by
  have here : (ialloc blank .dir).dinodes ROOTINO = { Dinode.zero with type := .dir, nlink :=
    1 } := rfl
  have there : ∀ j, j ≠ ROOTINO → (ialloc blank .dir).dinodes j = Dinode.zero :=
    fun j apart => Function.update_of_ne apart _ _
  have empty : Sane clean (blank.boot fun _ => none) := by
    refine ⟨fun i => ?_, ⟨fun key some => ?_, fun key other some => ?_, fun unit _ => ?_⟩,
      fun j typed => ?_, fun j typed => ?_⟩
    · exact slotOk_unused rfl rfl
    · exact (some rfl).elim
    · exact (some rfl).elim
    · change decide (unit < nmeta) = true ↔ _
      rw [decide_eq_true_eq]
      constructor
      · exact Or.inl
      · rintro (below | ⟨key, same, nonzero⟩)
        · exact below
        · exact (nonzero same.symm).elim
    · exact (typed rfl).elim
    · exact (typed rfl).elim
  refine ⟨⟨⟨fun _ _ => rfl, Nat.le_refl _⟩, ?_⟩, ?_, ?_, ?_, ?_, ?_, ?_, ?_, ?_, ?_, ?_⟩
  · exact (empty.allocInode (X := ROOTINO) rfl (by decide) (by decide) rfl rfl).relog []
  · intro j beyond
    rw [there j (Nat.ne_of_gt beyond)]
    rfl
  · decide
  · intro j lower upper
    change j < 2 at upper
    change 1 < j at lower
    omega
  · rw [here]
  · rw [here]
  · rfl
  · rfl
  · exact fun some => (some rfl).elim
  · intro j lower upper
    change j < 2 at upper
    change 1 < j at lower
    omega
  · intro j
    by_cases root : j = ROOTINO
    · rw [root, here]
      rfl
    · rw [there j root]
      rfl

end Build

/-- What mkfs leaves: a sound disk with the root directory and the files. -/
structure Made (im : Image) (sources : List Source) : Prop where
  sane : ∀ devsw, Sane clean (im.boot devsw)
  type : (im.dinodes ROOTINO).type = .dir
  nlink : (im.dinodes ROOTINO).nlink = 1
  size : (im.dinodes ROOTINO).size = BSIZE
  entries : ∃ free, entriesOf im.blocks (im.dinodes ROOTINO) =
    [⟨ROOTINO, strncpy [46] DIRSIZ⟩, ⟨ROOTINO, strncpy [46, 46] DIRSIZ⟩] ++ fileEntries 2 sources ++
      List.replicate free Dirent.zero
  files : ∀ j, ROOTINO < j → j < 2 + sources.length →
    (im.dinodes j).type = .file ∧ (im.dinodes j).nlink = 1
  unused : ∀ j, 2 + sources.length ≤ j → (im.dinodes j).type = .free
  contents : ∀ k file, sources[k]? = some file →
    contentOf im.blocks (im.dinodes (2 + k)) 0 (im.dinodes (2 + k)).size = file.reads.flatten
  mode : ∀ j, (im.dinodes j).mode = 0

section Fix

variable {im : Image} {ents : List Dirent} {data : Nat → List UInt8}

theorem fixRoot_root (im : Image) : (fixRoot im).dinodes ROOTINO = { im.dinodes ROOTINO with
    size := ((im.dinodes ROOTINO).size / BSIZE + 1) * BSIZE } := by
  simp only [fixRoot, Function.update_self]

theorem fixRoot_others (im : Image) (apart : j ≠ ROOTINO) : (fixRoot im).dinodes j = im.dinodes j :=
  Function.update_of_ne apart _ _

/-- The root directory has one block, before and after its size is rounded up. -/
theorem Built.fixed_size (built : Built im ents data) (some : ents ≠ [])
    (few : DIRENTSIZE * ents.length < BSIZE) :
    ((fixRoot im).dinodes ROOTINO).size = BSIZE ∧ blocksOf (im.dinodes ROOTINO).size =
      blocksOf BSIZE := by
  have nonempty : 0 < ents.length := List.length_pos_iff.mpr some
  constructor
  · grind [fixRoot_root, size, Nat.div_eq_of_lt]
  · rw [built.size]
    simp only [blocksOf, BSIZE, DIRENTSIZE, DIRSIZ] at few ⊢
    omega

theorem Built.fixed_sane (built : Built im ents data) (some : ents ≠ [])
    (few : DIRENTSIZE * ents.length < BSIZE) (devsw : Int → Option Device) :
    Sane clean ((fixRoot im).boot devsw) := by
  obtain ⟨size, same⟩ := built.fixed_size some few
  have sane := built.ok.sane
  have typed : (im.dinodes ROOTINO).type ≠ .free := by rw [built.type]; decide
  have addrs : ((fixRoot im).dinodes ROOTINO).addrs = (im.dinodes ROOTINO).addrs := by
    rw [fixRoot_root]
  have position : ∀ n, blockAddr im.blocks ((fixRoot im).dinodes ROOTINO) n =
      blockAddr im.blocks (im.dinodes ROOTINO) n := by
    grind [blockAddr]
  have owners : owner im.blocks (fixRoot im).dinodes = owner im.blocks im.dinodes := by
    funext key
    unfold owner
    by_cases here : key.1 = ROOTINO
    · rw [here, position, fixRoot_root]
    · rw [fixRoot_others im here]
  refine ⟨fun i => slotOk_unused rfl rfl, ?_, fun j allocated => ?_, fun j allocated => ?_⟩
  · change Exact nmeta FSSIZE (owner im.blocks (fixRoot im).dinodes) (bitmap im)
    rw [owners]
    exact sane.owned
  · change Sized im.blocks ((fixRoot im).dinodes j)
    by_cases here : j = ROOTINO
    · subst here
      have before : Shaped im.blocks (im.dinodes ROOTINO) (blocksOf (im.dinodes ROOTINO).size) :=
        (sane.sized ROOTINO typed).shaped
      rw [same] at before
      refine ⟨by rw [size]; decide, ?_⟩
      rw [size]
      refine ⟨before.bound, fun n inside => ?_, ?_⟩
      · exact before.data n inside
      · exact before.indirect
    · change ((fixRoot im).dinodes j).type ≠ .free at allocated
      rw [fixRoot_others im here] at allocated ⊢
      exact sane.sized j allocated
  · change ((fixRoot im).dinodes j).type ≠ .free at allocated
    by_cases here : j = ROOTINO
    · subst here
      decide
    · rw [fixRoot_others im here] at allocated
      exact sane.numbered j allocated

/-- Behind the entries the rounded directory holds zeroes. -/
theorem Built.fixed_entries (built : Built im ents data) (some : ents ≠ [])
    (few : DIRENTSIZE * ents.length < BSIZE) :
    entriesOf (fixRoot im).blocks ((fixRoot im).dinodes ROOTINO) =
      ents ++ List.replicate (BSIZE / DIRENTSIZE - ents.length) Dirent.zero := by
  obtain ⟨size, _⟩ := built.fixed_size some few
  have bytes : ∀ k, byteAt (fixRoot im).blocks ((fixRoot im).dinodes ROOTINO) k =
      byteAt im.blocks (im.dinodes ROOTINO) k := by
    intro k
    rfl
  have count : BSIZE / DIRENTSIZE = ents.length + (BSIZE / DIRENTSIZE - ents.length) := by grind
  rw [entriesOf, size, count, List.range_add, List.map_append, ← count]
  congr 1
  · rw [← built.entries]
    simp only [entriesOf, built.size, List.length_map, List.length_range]
    rfl
  · rw [List.eq_replicate_iff, List.length_map, List.length_map, List.length_range]
    refine ⟨rfl, fun de member => ?_⟩
    rw [List.map_map, List.mem_map] at member
    obtain ⟨k, small, rfl⟩ := member
    have below := List.mem_range.mp small
    have zeroes : contentOf (fixRoot im).blocks ((fixRoot im).dinodes ROOTINO)
        (DIRENTSIZE * (ents.length + k)) DIRENTSIZE = List.replicate DIRENTSIZE 0 := by
      rw [List.eq_replicate_iff, contentOf, List.length_map, List.length_range]
      refine ⟨rfl, fun byte member => ?_⟩
      obtain ⟨j, inside, rfl⟩ := List.mem_map.mp member
      have short := List.mem_range.mp inside
      refine built.rest some _ ?_ ?_
      · rw [Nat.mul_add]
        omega
      · grind
    simp only [Function.comp_apply]
    rw [zeroes]
    rfl

end Fix

theorem fileEntries_length (inum : Nat) (files : List Source) :
    (fileEntries inum files).length = files.length := by
  induction files generalizing inum with
  | nil => rfl
  | cons file rest ih => rw [fileEntries, List.length_cons, List.length_cons, ih]

theorem getElem?_fileEntries {k : Nat} :
    (fileEntries inum files)[k]? = files[k]?.map (fileEntry (inum + k)) := by
  induction files generalizing inum k with
  | nil => rfl
  | cons file rest ih =>
    rw [fileEntries]
    cases k with
    | zero => rfl
    | succ k =>
      rw [List.getElem?_cons_succ, List.getElem?_cons_succ, ih, Nat.add_assoc, Nat.add_comm 1 k]

theorem mem_fileEntries {de : Dirent} (member : de ∈ fileEntries inum files) :
    inum ≤ de.inum ∧ de.inum < inum + files.length := by
  induction files generalizing inum with
  | nil => exact (List.not_mem_nil member).elim
  | cons file rest ih =>
    rw [fileEntries, List.mem_cons] at member
    rw [List.length_cons]
    rcases member with rfl | later
    · exact ⟨Nat.le_refl _, Nat.lt_add_of_pos_right (Nat.succ_pos _)⟩
    · have range := ih later
      omega

/-- An image of few enough files, that fits on the disk, is sound. -/
theorem mkfs_made {im : Image} (made : mkfs files = some im)
    (few : files.length < NINODES - 1) (room : im.freeblock ≤ FSSIZE) : Made im files := by
  obtain ⟨first, dot, made⟩ := Option.bind_eq_some_iff.mp made
  obtain ⟨second, dotdot, made⟩ := Option.bind_eq_some_iff.mp made
  obtain ⟨last, filled, rfl⟩ := Option.map_eq_some_iff.mp made
  have room2 := (addFiles_grow filled).trans room
  have room1 := (iappend_grows dotdot).trans room2
  have root := built_root fun _ => []
  have built1 := root.entry dot room1 (by decide) (strncpy_length _ _)
  have count1 := (iappend_grown root.ok (by decide) dot room1).2.freeinode
  have built2 := built1.entry dotdot room2 (by decide) (strncpy_length _ _)
  have count2 := (iappend_grown built1.ok (by rw [built1.type]; decide) dotdot room2).2.freeinode
  have two : second.freeinode = 2 := count2.trans count1
  have enough : second.freeinode + files.length ≤ NINODES := by omega
  obtain ⟨data, built, count, _, contents⟩ := built2.run enough filled room
  rw [two] at built count contents
  generalize listed : ([] ++ [⟨ROOTINO, strncpy [46] DIRSIZ⟩] ++
    [⟨ROOTINO, strncpy [46, 46] DIRSIZ⟩] ++ fileEntries 2 files : List Dirent) = ents at built
  have length : ents.length = 2 + files.length := by
    rw [← listed]
    simp only [List.length_append, List.length_nil, List.length_singleton, fileEntries_length]
  have some : ents ≠ [] := by grind
  have small : DIRENTSIZE * ents.length < BSIZE := by grind
  refine ⟨built.fixed_sane some small, ?_, ?_, (built.fixed_size some small).1, ?_, ?_, ?_, ?_,
    fun j => ?_⟩
  · exact built.type
  · exact built.nlink
  · refine ⟨BSIZE / DIRENTSIZE - ents.length, ?_⟩
    rw [built.fixed_entries some small]
    exact congrArg (· ++ List.replicate (BSIZE / DIRENTSIZE - ents.length) Dirent.zero) listed.symm
  · grind [fixRoot_others, Nat.ne_of_gt, Built.files]
  · intro j beyond
    have apart : j ≠ ROOTINO := by
      simp only [ROOTINO]
      omega
    rw [fixRoot_others last apart]
    exact built.unused j (by omega)
  · intro k file there
    have below : k < files.length := (List.getElem?_eq_some_iff.mp there).1
    have apart : 2 + k ≠ ROOTINO := by
      simp only [ROOTINO]
      omega
    rw [fixRoot_others last apart, ← contents k file there]
    exact built.contents (2 + k) (by simp only [ROOTINO]; omega) (by omega)
  · by_cases root : j = ROOTINO
    · rw [root, fixRoot_root]
      exact built.mode ROOTINO
    · rw [fixRoot_others last root]
      exact built.mode j

end Xv6.Mkfs
