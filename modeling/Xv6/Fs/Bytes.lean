import Xv6.Fs.Machine
import Xv6.Fs.Room

/- readi and writei make an inode an array of bytes; filewrite writes it in chunks. -/
namespace Xv6.Fs

open Exec hiding panic

/-- The bytes `src` are in inode `X` at `off`, which grew to hold them; no other byte of any
inode changed. -/
structure Spliced (s s' : State) (X off : Nat) (src : List UInt8) : Prop where
  size : (s'.dinodes X).size = max (s.dinodes X).size (off + src.length)
  inside : ∀ k, off ≤ k → k < off + src.length →
    byteAt s'.blocks (s'.dinodes X) k = src.getD (k - off) 0
  outside : ∀ k, k < (s.dinodes X).size → (k < off ∨ off + src.length ≤ k) →
    byteAt s'.blocks (s'.dinodes X) k = byteAt s.blocks (s.dinodes X) k
  others : ∀ j, j ≠ X → s'.dinodes j = s.dinodes j ∧ ((s.dinodes j).type ≠ .free →
    ∀ k, k < (s.dinodes j).size → byteAt s'.blocks (s'.dinodes j) k = byteAt s.blocks
    (s.dinodes j) k)

section Array

variable {s s' : State} {i : Fin NINODE} {dirty : Fin NINODE → Bool} {off : Nat} {src : List UInt8}

/-- The copy in the slot is the disk inode again after a write. -/
theorem Stored.copy (stored : Stored s s' i off src) :
    s'.dinodes (s.icache i).inum = (s'.icache i).din := by
  rw [stored.written.dinodes, Function.update_self]

theorem Stored.spliced (sane : Sane dirty s) (used : 0 < (s.icache i).ref)
    (valid : (s.icache i).valid = true) (clean : dirty i = false) (stored : Stored s s' i off src) :
    Spliced s s' (s.icache i).inum off src := by
  have before := (sane.slots i).coherent used valid clean
  have after := stored.copy
  refine ⟨?_, fun k lower upper => ?_, fun k below apart => ?_, fun j apart => ?_⟩
  · rw [after, stored.din, ← before]
  · rw [after]
    exact stored.inside k lower upper
  · grind [outside]
  · have same : s'.dinodes j = s.dinodes j := by
      rw [stored.written.dinodes, Function.update_of_ne apart]
    refine ⟨same, fun allocated k below => ?_⟩
    grind [Sane.sized, Sized.byteAt, foreign, div_lt_blocksOf]

theorem readi_refused (plain : (s.icache i).din.type ≠ .dev) {n : Nat} (fits : n < 2 ^ 32)
    (small : (s.icache i).din.size < 2 ^ 32) (refused : readRefused (s.icache i).din.size off n) :
    readi i off n s = .ok ((-1, []), s) := by
  have result : Spec Stops.nothing (readi i off n) s fun r s' => r = (-1, []) ∧ s' = s := by
    refine Spec.bind_get ?_
    grind [Spec.pure, readRefused]
  obtain ⟨r, s', returned, rfl, rfl⟩ := result.total
  exact returned

/-- `readi` and `writei` read and write an array of bytes. -/
theorem inode_byte_array (sane : Sane dirty s) (used : 0 < (s.icache i).ref)
    (valid : (s.icache i).valid = true) (clean : dirty i = false)
    (plain : (s.icache i).din.type ≠ .dev) :
    (∀ (src : List UInt8) (off : Nat),
      ((∃ s', writei i src off s = .ok (-1, s')) ↔ writeRefused (s.icache i).din.size off
        src.length) ∧
      (writeRefused (s.icache i).din.size off src.length → writei i src off s = .ok (-1, s)) ∧
      (¬ writeRefused (s.icache i).din.size off src.length →
        s.RoomFor (s.icache i).din.size off src.length →
        ∃ s', writei i src off s = .ok (Int.ofNat src.length, s') ∧ Sane dirty s' ∧
          Spliced s s' (s.icache i).inum off src) ∧
      writei i src off s ≠ .panic "bmap: out of range") ∧ ∀ off n, n < 2 ^ 32 →
      (readRefused (s.icache i).din.size off n → readi i off n s = .ok ((-1, []), s)) ∧
      (¬ readRefused (s.icache i).din.size off n →
        readi i off n s = .ok ((Int.ofNat (min n ((s.icache i).din.size - off)),
          contentOf s.blocks (s.icache i).din off (min n ((s.icache i).din.size - off))), s)) := by
  refine ⟨fun src off => ⟨⟨fun failed => ?_, fun refused => ⟨s, writei_refused plain refused⟩⟩,
    writei_refused plain, fun accepted room => ?_, fun stopped => ?_⟩, fun off n fits =>
    ⟨fun refused => ?_, fun accepted => ?_⟩⟩
  · by_contra accepted
    obtain ⟨s', returned⟩ := failed
    have writes : Spec Stops.all (writei i src off) s _ :=
      writei_takes sane used valid clean plain accepted fun _ => trivial
    cases (writes.ok returned).1
  · have writes : Spec Stops.nothing (writei i src off) s _ :=
      writei_takes sane used valid clean plain accepted fun lacking => lacking room
    obtain ⟨_, s', returned, rfl, sane', stored, _⟩ := writes.total
    exact ⟨s', returned, sane', stored.spliced sane used valid clean⟩
  · have only : Spec ⟨fun message => message = "balloc: out of blocks", False⟩
      (writei i src off) s _ :=
      writei_spec rfl sane used valid clean src off
    have message : "bmap: out of range" = "balloc: out of blocks" := only.panicked stopped
    exact absurd message (by decide)
  · have bounded := (sane.sized _ ((sane.slots i).typed used valid)).bounded
    rw [← (sane.slots i).coherent used valid clean] at bounded
    have small : MAXFILE * BSIZE < 2 ^ 32 := by decide
    exact readi_refused plain fits (by omega) refused
  · unfold readRefused at accepted
    have read : Spec Stops.nothing (readi i off n) s _ := readi_clamped sane used valid clean off n
    obtain ⟨result, s', returned, rfl, content⟩ := read.total
    rw [returned, content plain (by omega) (by omega)]

/-- Process 0 makes a file and writes two bytes to it. -/
def twoBytes : List Event :=
  [.ialloc 0 .file, .ilock 0 0, .set 0 0 (.create 0 0), .iupdate 0 0, .writei 0 0 [104, 105] 0]

theorem inode_byte_array_twoBytes : ∃ im m s', Mkfs.mkfs [] = some im ∧
    runOps (boot im fun _ => none) twoBytes = some m ∧ writei 0 [33] 2 m.fs = .ok (1, s') ∧
    Spliced m.fs s' (m.fs.icache 0).inum 2 [33] := by
  obtain ⟨im, made, room, m, ran, used, valid, clean, plain, accepted, free⟩ :
    Mkfs.Yields [] fun im =>
      ∃ m ∈ runOps (boot im fun _ => none) twoBytes, 0 < (m.fs.icache 0).ref ∧
        (m.fs.icache 0).valid = true ∧ m.dirty 0 = false ∧ (m.fs.icache 0).din.type ≠ .dev ∧
        ¬ writeRefused (m.fs.icache 0).din.size 2 1 ∧
        m.fs.RoomFor (m.fs.icache 0).din.size 2 1 := by decide +kernel
  have sane := run_sane ((Mkfs.mkfs_made made (by decide) room).sane _) ran
  obtain ⟨s', wrote, _, spliced⟩ :=
    ((inode_byte_array sane used valid clean plain).1 [33] 2).2.2.1 accepted free
  exact ⟨im, m, s', made, ran, wrote, spliced⟩

end Array

section Chunks

variable {allowed : Stops} {s s' s1 s2 : State} {p : Fin NPROC} {f : Fin NFILE} {X off : Nat}
  {src chunk rest : List UInt8}

theorem Spliced.refl (start : off ≤ (s.dinodes X).size) : Spliced s s X off [] := by
  refine ⟨?_, fun k lower upper => ?_, fun _ _ _ => rfl, fun j apart => ⟨rfl, fun _ _ _ => rfl⟩⟩
  · exact (Nat.max_eq_left start).symm
  · simp only [List.length_nil] at upper
    omega

/-- A write behind another one, which it continues. -/
theorem Spliced.append (first : Spliced s s1 X off chunk)
    (second : Spliced s1 s2 X (off + chunk.length) rest) : Spliced s s2 X off (chunk ++ rest) := by
  have length : (chunk ++ rest).length = chunk.length + rest.length := List.length_append
  have size := first.size
  refine ⟨?_, fun k lower upper => ?_, fun k below apart => ?_, fun j apart => ?_⟩
  · rw [second.size, size, length]
    omega
  · by_cases early : k < off + chunk.length
    · rw [second.outside k (by omega) (Or.inl early), first.inside k lower early]
      grind
    · rw [second.inside k (by omega) (by omega)]
      grind
  · rw [second.outside k (by omega) (by omega), first.outside k below (by omega)]
  · obtain ⟨same1, bytes1⟩ := first.others j apart
    obtain ⟨same2, bytes2⟩ := second.others j apart
    refine ⟨same2.trans same1, fun allocated k below => ?_⟩
    rw [bytes2 (by rwa [same1]) k (by rwa [same1]), bytes1 allocated k below]

/-- The file `f` is open for writing, and its inode, the regular file `X`, is not locked. -/
structure Writable (s : State) (f : Fin NFILE) (X : Nat) : Prop where
  sane : ∃ dirty, Sane dirty s
  type : (s.ftable f).type = .inode
  writable : (s.ftable f).writable = true
  used : 0 < (s.icache (s.ftable f).ip).ref
  unlocked : (s.icache (s.ftable f).ip).lock = none
  inum : (s.icache (s.ftable f).ip).inum = X
  regular : (s.dinodes X).type = .file

/-- Between system calls no inode is locked. -/
theorem Base.writable (base : Base s) (type : (s.ftable f).type = .inode)
    (writable : (s.ftable f).writable = true) (inum : (s.icache (s.ftable f).ip).inum = X)
    (regular : (s.dinodes X).type = .file) : Writable s f X := by
  refine ⟨⟨_, (base.mid 0).sane⟩, type, writable, ?_, ?_, inum, regular⟩
  · have counted := (base.mid 0).counted (s.ftable f).ip
    have referred := @refs_file s f type
    omega
  · rw [(base.mid 0).locks, if_neg List.not_mem_nil]

/-- The offset and the content are the same. -/
structure SameFile (s s' : State) (f : Fin NFILE) (X : Nat) : Prop where
  off : (s'.ftable f).off = (s.ftable f).off
  size : (s'.dinodes X).size = (s.dinodes X).size
  bytes : ∀ k, k < (s.dinodes X).size → byteAt s'.blocks (s'.dinodes X) k = byteAt s.blocks
    (s.dinodes X) k

/-- What a round that wrote its chunk did. -/
structure Round (s s' : State) (f : Fin NFILE) (X : Nat) (chunk : List UInt8) : Prop where
  again : Writable s' f X
  off : (s'.ftable f).off = (s.ftable f).off + chunk.length
  spliced : Spliced s s' X (s.ftable f).off chunk
  free : s'.freeBlocks + held (max (blocksOf (s.dinodes X).size)
    (blocksOf ((s.ftable f).off + chunk.length))) =
    s.freeBlocks + held (blocksOf (s.dinodes X).size)

theorem Sane.putFile {dirty : Fin NINODE → Bool} (sane : Sane dirty s) (f : Fin NFILE)
    (file : File) :
    Sane dirty (s.putFile f file) := by
  refine ⟨fun j => ?_, sane.owned, sane.sized, sane.numbered⟩
  have slot := sane.slots j
  exact ⟨slot.device, slot.alone, slot.coherent, slot.ahead, slot.typed, slot.held, slot.locked⟩

theorem putFile_same (s : State) (f : Fin NFILE) : s.putFile f (s.ftable f) = s := by
  rw [State.putFile, Function.update_eq_self]

/-- `ilock` of the inode of the file returns. -/
theorem Writable.locks (file : Writable s f X) :
    Spec allowed (ilock p (s.ftable f).ip) s fun _ s' => s' = s.lockSlot p (s.ftable f).ip ∧
      ∃ dirty, Sane dirty s' ∧ dirty (s.ftable f).ip = false := by
  obtain ⟨dirty, sane⟩ := file.sane
  refine Spec.mono (ilock_spec sane (fun none => ?_) (fun taken => (taken file.unlocked).elim)
    fun free => ?_) ?_
  · exact absurd file.used (by omega)
  · rw [file.inum, file.regular] at free
    cases free
  · grind [Sane.clean, unlocked]

theorem Writable.lockSlot (file : Writable s f X) :
    (s.lockSlot p (s.ftable f).ip).icache (s.ftable f).ip =
      { s.icache (s.ftable f).ip with lock := some p, valid := true, din := s.dinodes X } := by
  rw [← file.inum]
  exact setSlot_self _ _ _

/-- A round whose bytes the file cannot hold changes nothing. -/
theorem Writable.refuses (file : Writable s f X)
    (refused : writeRefused (s.dinodes X).size (s.ftable f).off chunk.length) :
    Spec allowed (filewriteRound p f chunk) s fun r s' => r = -1 ∧ SameFile s s' f X := by
  refine Spec.bind_get ?_
  refine Spec.bind file.locks ?_
  rintro _ s1 ⟨rfl, dirty, sane, clean⟩
  have slot := @Writable.lockSlot s p f X file
  have plain : ((s.lockSlot p (s.ftable f).ip).icache (s.ftable f).ip).din.type ≠ .dev := by
    rw [slot, file.regular]
    exact Itype.noConfusion
  refine Spec.bind (Spec.of_eq (writei_refused plain (by rw [slot]; exact refused))) ?_
  rintro _ _ ⟨rfl, rfl⟩
  refine Spec.through (fun _ s' => s' = s.lockSlot p (s.ftable f).ip) ?_ ?_
  · exact Spec.when (fun forward => absurd forward (by decide)) fun _ => rfl
  · rintro _ _ rfl
    refine Spec.bind (iunlock_spec sane clean fun foreign => (foreign (by rw [slot])).elim) ?_
    rintro _ s' ⟨_, rfl⟩
    exact Spec.pure ⟨rfl, rfl, rfl, fun _ _ => rfl⟩

/-- A round whose bytes fit writes them, unless the disk is short of blocks. -/
theorem Writable.writes (file : Writable s f X)
    (accepted : ¬ writeRefused (s.dinodes X).size (s.ftable f).off chunk.length)
    (full : ¬ s.RoomFor (s.dinodes X).size (s.ftable f).off chunk.length →
      allowed "balloc: out of blocks") :
    Spec allowed (filewriteRound p f chunk) s fun r s' =>
      r = Int.ofNat chunk.length ∧ Round s s' f X chunk := by
  refine Spec.bind_get ?_
  refine Spec.bind file.locks ?_
  rintro _ s1 ⟨rfl, dirty, sane, clean⟩
  have slot := @Writable.lockSlot s p f X file
  have plain : ((s.lockSlot p (s.ftable f).ip).icache (s.ftable f).ip).din.type ≠ .dev := by
    rw [slot, file.regular]
    exact Itype.noConfusion
  have same : (s.lockSlot p (s.ftable f).ip).freeBlocks = s.freeBlocks := freeBlocks_congr rfl
  refine Spec.bind (writei_takes sane (by rw [slot]; exact file.used) (by rw [slot]) clean plain
    (show ¬ writeRefused _ (s.ftable f).off chunk.length by rw [slot]; exact accepted)
    (by rw [slot, State.RoomFor, same]; exact full)) ?_
  rintro _ s2 ⟨rfl, sane2, stored, free⟩
  have spliced := stored.spliced sane (by rw [slot]; exact file.used) (by rw [slot]) clean
  rw [slot, same] at free
  rw [slot, show ({ s.icache (s.ftable f).ip with
    lock := some p, valid := true, din := s.dinodes X } : Inode).inum = X from file.inum] at spliced
  have slot2 : s2.icache (s.ftable f).ip = { s.icache (s.ftable f).ip with
      lock := some p, valid := true, din := (s2.icache (s.ftable f).ip).din } := by
    rw [stored.written.slot, slot]
  have ftable : s2.ftable = s.ftable := stored.written.ftable
  unfold writeRefused at accepted
  refine Spec.through (fun _ s' => s' = s2.putFile f { s.ftable f with off :=
    (s.ftable f).off + chunk.length }) ?_ ?_
  · unfold advance
    rw [setFile_eq]
    refine Spec.when (fun _ => Spec.modify ?_) fun none => ?_
    · rw [ftable, show (Int.ofNat chunk.length).toNat = chunk.length from rfl,
        Nat.mod_eq_of_lt (by omega)]
    · have empty : chunk.length = 0 := by grind
      rw [empty, Nat.add_zero, ← ftable]
      exact (putFile_same s2 f).symm
  · rintro _ _ rfl
    refine Spec.bind (iunlock_spec (sane2.putFile f _) clean fun foreign => (foreign ?_).elim) ?_
    · change (s2.icache (s.ftable f).ip).lock = some p
      rw [slot2]
    rintro _ s' ⟨sane', rfl⟩
    have file' : (s2.putFile f { s.ftable f with off := (s.ftable f).off + chunk.length }).ftable
        f = { s.ftable f with off := (s.ftable f).off + chunk.length } := putFile_self _ _ _
    have type : (s2.dinodes X).type = .file := by
      have copy := stored.copy
      rw [slot, show ({ s.icache (s.ftable f).ip with
        lock := some p, valid := true, din := s.dinodes X } : Inode).inum = X
          from file.inum] at copy
      rw [copy, stored.din, slot]
      exact file.regular
    refine Spec.pure ⟨rfl, ?_⟩
    generalize done : (s2.putFile f { s.ftable f with off :=
      (s.ftable f).off + chunk.length }).setSlot (s.ftable f).ip _ = final at sane' ⊢
    have entry : final.ftable f = { s.ftable f with off := (s.ftable f).off + chunk.length } := by
      rw [← done]
      exact file'
    have ends : final.icache (s.ftable f).ip = { s2.icache (s.ftable f).ip with lock := none } := by
      rw [← done]
      exact setSlot_self _ _ _
    have dinodes : final.dinodes = s2.dinodes := by
      rw [← done]
      rfl
    have blocks : final.blocks = s2.blocks := by
      rw [← done]
      rfl
    have left : final.freeBlocks = s2.freeBlocks := freeBlocks_congr (by rw [← done]; rfl)
    refine ⟨⟨⟨dirty, sane'⟩, ?_, ?_, ?_, ?_, ?_, ?_⟩, ?_, ?_, ?_⟩
    · rw [entry]
      exact file.type
    · rw [entry]
      exact file.writable
    · rw [entry, ends, slot2]
      exact file.used
    · rw [entry, ends]
    · rw [entry, ends, slot2]
      exact file.inum
    · rw [dinodes]
      exact type
    · rw [entry]
    · refine ⟨?_, ?_, ?_, ?_⟩
      · rw [dinodes]
        exact spliced.size
      · rw [dinodes, blocks]
        exact spliced.inside
      · rw [dinodes, blocks]
        exact spliced.outside
      · rw [dinodes, blocks]
        exact spliced.others
    · rw [left]
      exact free

theorem Round.refl (file : Writable s f X) (start : (s.ftable f).off ≤ (s.dinodes X).size) :
    Round s s f X [] := by
  refine ⟨file, rfl, Spliced.refl start, ?_⟩
  have covered : blocksOf ((s.ftable f).off + ([] : List UInt8).length) ≤ blocksOf
    (s.dinodes X).size := by
    simp only [blocksOf, BSIZE, List.length_nil]
    omega
  rw [Nat.max_eq_left covered]

/-- The blocks of the file after a round. -/
theorem Round.blocks (round : Round s s' f X chunk) : blocksOf (s'.dinodes X).size =
    max (blocksOf (s.dinodes X).size) (blocksOf ((s.ftable f).off + chunk.length)) := by
  rw [round.spliced.size]
  simp only [blocksOf, BSIZE]
  omega

theorem max_blocksOf_append {size a b : Nat} :
    max (max (blocksOf size) (blocksOf (off + a))) (blocksOf (off + a + b)) =
    max (blocksOf size) (blocksOf (off + (a + b))) := by
  simp only [blocksOf, BSIZE]
  omega

theorem Round.append (first : Round s s1 f X chunk) (second : Round s1 s2 f X rest) :
    Round s s2 f X (chunk ++ rest) := by
  have spliced := second.spliced
  rw [first.off] at spliced
  refine ⟨second.again, ?_, first.spliced.append spliced, ?_⟩
  · rw [second.off, first.off, List.length_append]
    omega
  · have free1 := first.free
    have free2 := second.free
    grind [blocks, off, max_blocksOf_append, List.length_append]

/-- The rest of a write for which there is room has room behind the first round. -/
theorem Round.room {n : Nat} (round : Round s s' f X chunk)
    (room : s.RoomFor (s.dinodes X).size (s.ftable f).off (chunk.length + n)) :
    s'.RoomFor (s'.dinodes X).size (s'.ftable f).off n := by
  have free := round.free
  grind [State.RoomFor, blocks, off, max_blocksOf_append]

theorem roomFor_mono {size n m : Nat} (less : n ≤ m) (room : s.RoomFor size off m) :
    s.RoomFor size off n := by
  unfold State.RoomFor at room ⊢
  have grows : held (max (blocksOf size) (blocksOf (off + n))) ≤ held
    (max (blocksOf size) (blocksOf (off + m))) := by
    refine held_mono ?_
    simp only [blocksOf, BSIZE]
    omega
  omega

/-- The disk is smaller than the largest file could be. -/
theorem Writable.small (file : Writable s f X) : (s.dinodes X).size ≤ FSSIZE * BSIZE := by
  obtain ⟨dirty, sane⟩ := file.sane
  have capacity := sane.capacity (show (s.dinodes X).type ≠
    .free by rw [file.regular]; exact Itype.noConfusion)
  unfold held at capacity
  have blocks : blocksOf (s.dinodes X).size ≤ FSSIZE := by omega
  simp only [blocksOf, BSIZE, FSSIZE] at blocks ⊢
  omega

/-- So a round is refused only if the offset is beyond the end. -/
theorem Writable.accepts (file : Writable s f X) (start : (s.ftable f).off ≤ (s.dinodes X).size)
    {n : Nat} (short : n ≤ 1536) : ¬ writeRefused (s.dinodes X).size (s.ftable f).off n := by
  have small := file.small
  simp only [writeRefused, MAXFILE, NDIRECT, NINDIRECT, BSIZE, FSSIZE] at small ⊢
  omega

/-- The rounds write all of the bytes, unless the disk is short of blocks. -/
theorem filewriteLoop_writes {fuel : Nat} (enough : src.length ≤ fuel) (file : Writable s f X)
    (start : (s.ftable f).off ≤ (s.dinodes X).size)
    (full : ¬ s.RoomFor (s.dinodes X).size (s.ftable f).off src.length →
      allowed "balloc: out of blocks") :
    Spec allowed (filewriteLoop p f fuel src) s fun left s' => left = 0 ∧ Round s s' f X src := by
  induction fuel generalizing s src with
  | zero =>
    have none : src = [] := List.length_eq_zero_iff.mp (by omega)
    subst none
    exact Spec.pure ⟨rfl, Round.refl file start⟩
  | succ fuel ih =>
    rw [filewriteLoop_succ]
    split
    · rename_i none
      have none : src = [] := List.length_eq_zero_iff.mp none
      subst none
      exact Spec.pure ⟨rfl, Round.refl file start⟩
    have chunk := nextChunk_length src
    have whole : (nextChunk src).length + (src.drop (nextChunk src).length).length = src.length :=
      by
      rw [List.length_drop]
      omega
    have fits := file.accepts start (show (nextChunk src).length ≤ 1536 by omega)
    refine Spec.bind (file.writes fits fun lacking => full fun room =>
      lacking (roomFor_mono (by omega) room)) ?_
    rintro _ s1 ⟨rfl, round⟩
    rw [if_neg (by simp), if_neg (by simp)]
    refine Spec.mono (ih (by omega) round.again ?_ fun lacking => full fun room => ?_) ?_
    · rw [round.off, round.spliced.size]
      omega
    · rw [← whole] at room
      exact lacking (round.room room)
    · rintro left s2 ⟨none, rest⟩
      have all := round.append rest
      rw [nextChunk_append] at all
      exact ⟨none, all⟩

/-- Two writes of the same bytes leave the same file. -/
theorem Round.same (start : (s.ftable f).off ≤ (s.dinodes X).size) (first : Round s s1 f X src)
    (second : Round s s2 f X src) :
    SameFile s1 s2 f X := by
  refine ⟨second.off.trans first.off.symm, second.spliced.size.trans first.spliced.size.symm,
    fun k below => ?_⟩
  by_cases inside : (s.ftable f).off ≤ k ∧ k < (s.ftable f).off + src.length
  · rw [first.spliced.inside k inside.1 inside.2, second.spliced.inside k inside.1 inside.2]
  · have size := first.spliced.size
    rw [first.spliced.outside k (by omega) (by omega), second.spliced.outside k (by omega)
      (by omega)]

/-- The call wrote what one `writei` of all the bytes would have written and returns their
number, or changed nothing and returns -1. -/
def AllOrNothing (p : Fin NPROC) (f : Fin NFILE) (X : Nat) (src : List UInt8) (s : State) : Prop :=
  (∃ s' r one, filewrite p f src s = .ok (Int.ofNat src.length, s') ∧
    filewriteRound p f src s = .ok (r, one) ∧ SameFile one s' f X) ∨
  ∃ s', filewrite p f src s = .ok (-1, s') ∧ SameFile s s' f X

/-- The first round behind the end of the file is refused. -/
theorem filewriteLoop_beyond {fuel : Nat} (enough : src.length ≤ fuel) (file : Writable s f X)
    (beyond : (s.dinodes X).size < (s.ftable f).off) :
    Spec allowed (filewriteLoop p f fuel src) s fun left s' => left = src.length ∧
      SameFile s s' f X := by
  have same : SameFile s s f X := ⟨rfl, rfl, fun _ _ => rfl⟩
  cases fuel with
  | zero => exact Spec.pure ⟨rfl, same⟩
  | succ fuel =>
    rw [filewriteLoop_succ]
    split
    · rename_i none
      exact Spec.pure ⟨none.symm, same⟩
    · refine Spec.bind (file.refuses (Or.inl beyond)) ?_
      grind [Spec.pure]

/-- What `filewrite` does to a file. -/
theorem filewrite_spec (file : Writable s f X)
    (full : ¬ s.RoomFor (s.dinodes X).size (s.ftable f).off src.length →
      allowed "balloc: out of blocks") :
    Spec allowed (filewrite p f src) s fun r s' =>
      if (s.ftable f).off ≤ (s.dinodes X).size then r = Int.ofNat src.length ∧ Round s s' f X src
      else (r = if src.length = 0 then 0 else -1) ∧ SameFile s s' f X := by
  refine Spec.bind_get ?_
  simp only [file.writable, file.type, Bool.true_eq_false, ↓reduceIte]
  split
  · rename_i start
    refine Spec.bind (filewriteLoop_writes (Nat.le_refl _) file start full) ?_
    grind [Spec.pure]
  rename_i beyond
  refine Spec.bind (filewriteLoop_beyond (Nat.le_refl _) file (Nat.not_le.mp beyond)) ?_
  rintro _ s1 ⟨rfl, same⟩
  refine Spec.pure ⟨?_, same⟩
  omega

/-- The files of two states that agree with a third one agree. -/
theorem SameFile.join (first : SameFile s s1 f X) (second : SameFile s s2 f X) :
    SameFile s1 s2 f X := by
  refine ⟨second.off.trans first.off.symm, second.size.trans first.size.symm, fun k below => ?_⟩
  rw [first.size] at below
  rw [second.bytes k below, first.bytes k below]

/-- A call that returned was a write of the whole or changed nothing. -/
theorem allOrNothing_of_returned (file : Writable s f X) {r : Int}
    (returned : filewrite p f src s = .ok (r, s')) :
    AllOrNothing p f X src s := by
  have post : Spec Stops.all (filewrite p f src) s _ := filewrite_spec file fun _ => trivial
  have post := post.ok returned
  split at post
  · rename_i start
    obtain ⟨rfl, round⟩ := post
    have size := round.spliced.size
    have small := round.again.small
    have accepted : ¬ writeRefused (s.dinodes X).size (s.ftable f).off src.length := by
      simp only [writeRefused, MAXFILE, NDIRECT, NINDIRECT, BSIZE, FSSIZE] at small ⊢
      omega
    have room : s.RoomFor (s.dinodes X).size (s.ftable f).off src.length := by
      have free := round.free
      unfold State.RoomFor
      omega
    have single : Spec Stops.nothing (filewriteRound p f src) s _ :=
      file.writes accepted fun lacking => lacking room
    obtain ⟨_, one, ran, _, round'⟩ := single.total
    exact Or.inl ⟨s', _, one, returned, ran, round'.same start round⟩
  · rename_i beyond
    obtain ⟨result, same⟩ := post
    split at result
    · rename_i none
      have single : Spec Stops.nothing (filewriteRound p f src) s _ :=
        file.refuses (Or.inl (Nat.not_le.mp beyond))
      obtain ⟨r', one, ran, _, same'⟩ := single.total
      refine Or.inl ⟨s', r', one, ?_, ran, same'.join same⟩
      rw [returned, result, none]
      rfl
    · rw [result] at returned
      exact Or.inr ⟨s', returned, same⟩

/-- `filewrite` is all or nothing, unless the disk is short of blocks, and then there was no room
for the write. A file never reaches its largest size, for which the disk is too small. -/
theorem filewrite_all_or_nothing (file : Writable s f X) (src : List UInt8) :
    (filewrite p f src s ≠ .panic "balloc: out of blocks" → AllOrNothing p f X src s) ∧
    (s.RoomFor (s.dinodes X).size (s.ftable f).off src.length →
      filewrite p f src s ≠ .panic "balloc: out of blocks") := by
  constructor
  · intro available
    have post : Spec ⟨fun message => message = "balloc: out of blocks", False⟩
      (filewrite p f src) s _ :=
      filewrite_spec file fun _ => rfl
    cases run : filewrite p f src s with
    | ok result => exact allOrNothing_of_returned file run
    | panic message =>
      rw [run, post.panicked run] at available
      exact (available rfl).elim
    | blocked => exact (post.blocked run).elim
  · intro room stopped
    have post : Spec Stops.nothing (filewrite p f src) s _ := filewrite_spec file fun lacking =>
      lacking room
    exact post.panicked stopped

theorem filewrite_all_or_nothing_opened : ∃ im s, Mkfs.mkfs [⟨[120], []⟩] = some im ∧
    runSystem im (fun _ => none) [(0, .sysOpen [47, 120] O_RDWR)] = some s ∧
    AllOrNothing 0 0 2 (List.replicate 2000 104) s := by
  obtain ⟨im, made, fits, s, reached, inode, writable, inum, regular, room⟩ :
      Mkfs.Yields [⟨[120], []⟩] fun im =>
        ∃ s ∈ runSystem im (fun _ => none) [(0, .sysOpen [47, 120] O_RDWR)],
          (s.ftable 0).type = .inode ∧ (s.ftable 0).writable = true ∧
          (s.icache (s.ftable 0).ip).inum = 2 ∧ (s.dinodes 2).type = .file ∧
          s.RoomFor (s.dinodes 2).size (s.ftable 0).off 2000 := by decide +kernel
  have base := run_system_base (Mkfs.mkfs_made made (by decide) fits) reached
  have law := @filewrite_all_or_nothing s 0 0 2 (base.writable inode writable inum regular)
    (List.replicate 2000 104)
  rw [List.length_replicate] at law
  exact ⟨im, s, made, reached, law.1 (law.2 room)⟩

end Chunks

end Xv6.Fs
