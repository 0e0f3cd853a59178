import Xv6.Fs.Base

/- file.c: the operations on open files keep `Base`, and show in the world only where a file
is written or a last reference is dropped. -/
namespace Xv6.Fs

open Exec hiding panic

variable {allowed : Stops} {p : Fin NPROC} {s : State} {f : Fin NFILE}

section Simple

variable {c : Outside} {held : List (Fin NINODE × Nat)} {locked : List (Fin NINODE)} {X : Nat}

theorem Base.putFd (base : Base s) (p : Fin NPROC) (fd : Fin NOFILE) (f : Option (Fin NFILE)) :
    Base (s.putFd p fd f) := by
  refine base.retable _ (fun q => ?_) (fun f => File.Like.refl _) base.idle
  grind

theorem Base.putPipe (base : Base s) (page : Nat) (pipe : Option Pipe) :
    Base (s.putPipe page pipe) :=
  base.retable _ (fun _ => rfl) (fun _ => File.Like.refl _) base.idle

theorem Base.putFile (base : Base s) (f : Fin NFILE) {file : File} (like : file.Like (s.ftable f))
    (idle : file.ref = 0 → file.type = .none) : Base (s.putFile f file) := by
  refine base.retable _ (fun q => rfl) (fun g => ?_) fun g => ?_
  · grind [Function.update_self, Function.update_of_ne, File.Like.refl]
  · grind [Function.update_self, Function.update_of_ne, idle]

/-- A file with a type has a reference. -/
theorem Base.ref (base : Base s) (type : (s.ftable f).type = .inode) : (s.ftable f).ref ≠ 0 := by
  grind [idle]

theorem filedup_step (lenient : Lenient allowed) (base : Base s) (f : Fin NFILE) :
    Spec allowed (filedup f) s fun _ s' => Base s' ∧ s'.world = s.world ∧ s'.procs = s.procs := by
  refine Spec.bind_get ?_
  split
  · exact Spec.panic (lenient _ (by decide))
  · refine Spec.modify ⟨base.putFile f ⟨Iff.rfl, fun _ => rfl, fun _ => rfl⟩ fun zero =>
      ?_, rfl, rfl⟩
    exact (Nat.succ_ne_zero _ zero).elim

theorem dup_step (lenient : Lenient allowed) (base : Base s) (fd : Int) :
    Spec allowed (sysDup p fd) s fun _ s' => Base s' ∧ s'.world = s.world := by
  refine Spec.bind_get ?_
  split
  · exact Spec.pure ⟨base, rfl⟩
  rename_i f _
  refine Spec.bind (fdalloc_spec p f) ?_
  intro found s1 post
  cases found with
  | none =>
    rw [post.2]
    exact Spec.pure ⟨base, rfl⟩
  | some new =>
    rw [post.2]
    refine Spec.bind (filedup_step lenient (base.putFd p new (some f)) f) ?_
    rintro _ s2 ⟨base2, world2, _⟩
    exact Spec.pure ⟨base2, world2⟩

/-- An open file's inode, as one that the call holds. -/
theorem Base.borrow (base : Base s) (p : Fin NPROC) (type : (s.ftable f).type = .inode) :
    Midway (s.outside.less (s.ftable f).ip) p [((s.ftable f).ip, (s.icache (s.ftable f).ip).inum)]
      [] s :=
  (base.mid p).take (refs_file type)

/-- The inode of an open file has a type. -/
theorem Base.typed (base : Base s) (type : (s.ftable f).type = .inode) :
    s.world.type (s.icache (s.ftable f).ip).inum ≠ .free :=
  (base.mid 0).alive _ (refs_file type)

/-- It is given back; files may have moved their offsets meanwhile. -/
theorem Base.give (base : Base s) {s' : State} (type : (s.ftable f).type = .inode)
    {ftable : Fin NFILE → File}
    (mid : Midway { s.outside.less (s.ftable f).ip with ftable := ftable } p
      [((s.ftable f).ip, (s.icache (s.ftable f).ip).inum)] [] s')
    (same : ∀ g, ∃ off, ftable g = { s.ftable g with off := off })
    (types : ∀ X, s'.world.type X = s.world.type X) : Base s' := by
  have procs : s'.procs = s.procs := mid.procs
  have ftable : s'.ftable = ftable := mid.ftable
  have file : ∀ g, ∃ off, s'.ftable g = { s.ftable g with off := off } := by
    intro g
    rw [ftable]
    exact same g
  have like : ∀ g, (s'.ftable g).Like (s.ftable g) := by
    intro g
    obtain ⟨off, equal⟩ := file g
    rw [equal]
    exact ⟨Iff.rfl, fun _ => rfl, fun _ => rfl⟩
  have settled := fun q => mid.settle (fun i => ?_) (fun h member => ?_) q
  · refine ⟨settled, fun g zero => ?_, fun g type' writable => ?_⟩
    · obtain ⟨off, equal⟩ := file g
      rw [equal] at zero ⊢
      exact base.idle g zero
    · rw [(like g).writable type'] at writable
      rw [(like g).ip type']
      rw [(like g).inode] at type'
      have inum : (s'.icache (s.ftable g).ip).inum = (s.icache (s.ftable g).ip).inum := by
        by_cases equal : (s.ftable g).ip = (s.ftable f).ip
        · rw [equal]
          exact mid.names _ List.mem_cons_self
        · refine mid.steady _ ?_
          have used := refs_file type'
          change 0 < Function.update s.outside.refs _ _ _
          rwa [Function.update_of_ne equal]
      rw [inum]
      change s'.world.type _ ≠ .dir
      rw [types]
      exact base.files g type' writable
  · rw [s.outside.less_refs (refs_file type), procs, outside_refs, opens_congr like]
  · rw [List.mem_singleton] at member
    rw [member]
    change s'.world.type _ ≠ .free
    rw [types]
    exact base.typed type

theorem stat_step (base : Base s) (f : Fin NFILE) :
    Spec allowed (filestat p f) s fun _ s' => Base s' ∧ s'.world = s.world := by
  refine Spec.bind_get ?_
  split
  · rename_i type
    refine Spec.bind (ilock_step (base.borrow p type) List.mem_cons_self none_locked fun free =>
      (base.typed type free).elim) ?_
    rintro _ s1 ⟨mid1, world1, _, _⟩
    refine Spec.bind (iunlock_step mid1 List.not_mem_nil) ?_
    rintro _ s2 ⟨mid2, world2⟩
    have world : s2.world = s.world := world2.trans world1
    exact Spec.pure ⟨base.give type mid2 (fun g => ⟨_, rfl⟩) (fun X => by rw [world]), world⟩
  · exact Spec.pure ⟨base, rfl⟩

/-- The open files after `f->off += r`, for a positive `r`. -/
def advanced (ftable : Fin NFILE → File) (f : Fin NFILE) (r : Int) : Fin NFILE → File :=
  if 0 < r then Function.update ftable f { ftable f with off := ((ftable f).off + r.toNat) %
    2 ^ 32 } else ftable

theorem advanced_off (ftable : Fin NFILE → File) (f : Fin NFILE) (r : Int) (g : Fin NFILE) :
    ∃ off, advanced ftable f r g = { ftable g with off := off } := by
  unfold advanced
  split
  · by_cases here : g = f
    · simp [Function.update_self, here]
    · rw [Function.update_of_ne here]
      exact ⟨_, rfl⟩
  · exact ⟨_, rfl⟩

/-- The offset of a file moves while its inode is locked. -/
theorem advance_step (mid : Midway c p held locked s) (f : Fin NFILE) (r : Int) :
    Spec allowed (when (0 < r) (advance f r)) s fun _ s' =>
      Midway { c with ftable := advanced c.ftable f r } p held locked s' ∧ s'.world = s.world := by
  unfold advanced
  refine Spec.when (fun forward => ?_) fun stays => ?_
  · unfold advance
    have file : s.ftable f = c.ftable f := congrFun mid.ftable f
    rw [setFile_eq, if_pos forward, ← file]
    exact Spec.modify ⟨mid.putFile f _, rfl⟩
  simp [stays, mid]

theorem piperead_step (base : Base s) (page n : Nat) (waits : allowed.waits) :
    Spec allowed (piperead page n) s fun _ s' => Base s' ∧ s'.world = s.world := by
  refine Spec.bind_get ?_
  split
  · split
    · exact Spec.bind_modify (Spec.pure ⟨base.putPipe _ _, rfl⟩)
    · exact Spec.pure ⟨base, rfl⟩
    · exact Spec.wait waits
  · exact Spec.wait waits

theorem pipewrite_step (base : Base s) (page : Nat) (src : List UInt8) (waits : allowed.waits) :
    Spec allowed (pipewrite page src) s fun _ s' => Base s' ∧ s'.world = s.world := by
  refine Spec.bind_get ?_
  split
  · split
    · exact Spec.bind_modify (Spec.pure ⟨base.putPipe _ _, rfl⟩)
    · exact Spec.bind_modify (Spec.pure ⟨base.putPipe _ _, rfl⟩)
    · exact Spec.wait waits
  · exact Spec.wait waits

theorem read_step (lenient : Lenient allowed) (base : Base s) (f : Fin NFILE) (n : Nat)
    (waits : (s.ftable f).type = .pipe → allowed.waits) :
    Spec allowed (fileread p f n) s fun _ s' => Base s' ∧ s'.world = s.world := by
  refine Spec.bind_get ?_
  dsimp only
  split
  · exact Spec.pure ⟨base, rfl⟩
  split
  · rename_i type
    exact piperead_step base _ n (waits type)
  · rename_i type
    refine Spec.bind (ilock_step (base.borrow p type) List.mem_cons_self none_locked fun free =>
      (base.typed type free).elim) ?_
    rintro _ s1 ⟨mid1, world1, _, _⟩
    have sees := mid1.sees List.mem_cons_self List.mem_cons_self
    refine Spec.bind (readi_spec mid1.sane sees.used sees.valid rfl _ _) ?_
    rintro result s2 ⟨same, _⟩
    rw [same]
    refine Spec.bind (advance_step mid1 f result.1) ?_
    rintro _ s3 ⟨mid3, world3⟩
    refine Spec.bind (iunlock_step mid3 List.not_mem_nil) ?_
    rintro _ s4 ⟨mid4, world4⟩
    have world : s4.world = s.world := by rw [world4, world3, world1]
    exact Spec.pure ⟨base.give type mid4 (advanced_off _ f _) (fun X => by rw [world]), world⟩
  · exact Spec.panic (lenient _ (by decide))

/-- A write of a file shows in no directory. -/
theorem writeFile_step {i : Fin NINODE} (lenient : Lenient allowed) (mid : Midway c p held locked s)
    (sees : Sees s i X) (file : s.world.type X ≠ .dir) (src : List UInt8) (off : Nat) :
    Spec allowed (writei i src off) s fun r s' => Midway c p held locked s' ∧
      Writes s.world s'.world ∧
      (s.world.type X = .file → r = Int.ofNat src.length → Stored s s' i off src) := by
  refine Spec.mono (writei_spec (lenient _ (by decide)) mid.sane sees.used sees.valid rfl
    src off) ?_
  rintro n s' ⟨sane, ⟨same, failed⟩ | ⟨_, _, _, stored⟩⟩
  · rw [same]
    refine ⟨mid, Writes.refl _, fun regular all => ?_⟩
    rcases failed with device | rfl
    · rw [sees.din] at device
      cases regular.symm.trans device
    · cases all
  · obtain ⟨bytes, size, addrs, world⟩ := stored.world_file mid.sane sees file
    have type : (s'.icache i).din.type = (s.dinodes X).type := by rw [stored.din, sees.din]
    refine ⟨mid.written sees sane stored.written type fun dir => ?_, Writes.step (Writes.refl _)
      file world, fun _ _ => stored⟩
    rw [type] at dir
    exact (file dir).elim

/-- One round of the loop of `filewrite`, from `begin_op` to `end_op`. -/
def filewriteRound (p : Fin NPROC) (f : Fin NFILE) (chunk : List UInt8) : Exec State Int := do
  let s ← get
  let file := s.ftable f
  ilock p file.ip
  let r ← writei file.ip chunk file.off
  when (0 < r) (advance f r)
  iunlock p file.ip
  return r

/-- The bytes of the next round. -/
def nextChunk (src : List UInt8) : List UInt8 :=
  src.take (min src.length ((MAXOPBLOCKS - 1 - 1 - 2) / 2 * 512))

theorem nextChunk_length (src : List UInt8) : (nextChunk src).length = min src.length 1536 := by
  rw [nextChunk, List.length_take, Nat.min_eq_left (Nat.min_le_left _ _)]
  rfl

theorem nextChunk_append (src : List UInt8) :
    nextChunk src ++ src.drop (nextChunk src).length = src := by
  have take : nextChunk src = src.take (nextChunk src).length := by
    rw [nextChunk_length, nextChunk]
    rfl
  grind [List.length_take, nextChunk_length, Nat.min_eq_left, Nat.min_le_left,
    List.take_append_drop]

theorem filewriteLoop_succ (p : Fin NPROC) (f : Fin NFILE) (fuel : Nat) (src : List UInt8) :
    filewriteLoop p f (fuel + 1) src = if src.length = 0 then return 0 else (do
      let r ← filewriteRound p f (nextChunk src)
      if r < 0 then return src.length
      else if r ≠ (nextChunk src).length then Exec.panic "short filewrite"
      else filewriteLoop p f fuel (src.drop (nextChunk src).length)) := by
  have length : (nextChunk src).length = min src.length ((MAXOPBLOCKS - 1 - 1 - 2) / 2 * 512) := by
    rw [nextChunk, List.length_take, Nat.min_eq_left (Nat.min_le_left _ _)]
  rw [length]
  simp only [filewriteLoop, filewriteRound, nextChunk, bind_assoc, pure_bind]

/-- The bytes are at the end of inode `X`, and the offset of `f` behind them. -/
structure Extends (s s' : State) (f : Fin NFILE) (X : Nat) (bytes : List UInt8) : Prop where
  file : s'.ftable f = { s.ftable f with off := (s.ftable f).off + bytes.length }
  inum : (s'.icache (s.ftable f).ip).inum = (s.icache (s.ftable f).ip).inum
  size : (s'.dinodes X).size = (s.dinodes X).size + bytes.length
  data : s'.world.data X = s.world.data X ++ bytes

/-- A round keeps `Base`; if the file is a regular one and `f` stands at its end, a write that
succeeds extends it. -/
theorem filewriteRound_step (lenient : Lenient allowed) (base : Base s)
    (type : (s.ftable f).type = .inode) (writable : (s.ftable f).writable = true)
    (inum : (s.icache (s.ftable f).ip).inum = X) (chunk : List UInt8) :
    Spec allowed (filewriteRound p f chunk) s fun r s' => Base s' ∧ Writes s.world s'.world ∧
      (∃ off, s'.ftable f = { s.ftable f with off := off }) ∧
      (s.world.type X = .file → (s.ftable f).off = (s.dinodes X).size → r = Int.ofNat chunk.length →
        Extends s s' f X chunk) := by
  subst inum
  refine Spec.bind_get ?_
  refine Spec.bind (ilock_step (base.borrow p type) List.mem_cons_self none_locked fun free =>
    (base.typed type free).elim) ?_
  rintro _ s1 ⟨mid1, world1, _, _⟩
  have sees := mid1.sees List.mem_cons_self List.mem_cons_self
  have file : s1.world.type (s.icache (s.ftable f).ip).inum ≠ .dir := by
    rw [world1]
    exact base.files f type writable
  refine Spec.bind (writeFile_step lenient mid1 sees file _ _) ?_
  rintro r s2 ⟨mid2, writes, stored⟩
  refine Spec.bind (advance_step mid2 f r) ?_
  rintro _ s3 ⟨mid3, world3⟩
  refine Spec.bind (iunlock_step mid3 List.not_mem_nil) ?_
  rintro _ s4 ⟨mid4, world4⟩
  have world : s4.world = s2.world := world4.trans world3
  rw [world1, ← world] at writes
  have ftable : s4.ftable = advanced s.ftable f r := mid4.ftable
  have off := advanced_off s.ftable f r f
  rw [← ftable] at off
  refine Spec.pure ⟨base.give type mid4 (advanced_off _ f r) writes.type, writes, off,
    fun regular ends all => ?_⟩
  have dinodes1 : s1.dinodes = s.dinodes := congrArg World.inode world1
  have dinodes : s4.dinodes = s2.dinodes := congrArg World.inode world
  have typed : (s1.dinodes (s.icache (s.ftable f).ip).inum).type = .file := by
    rw [dinodes1]
    exact regular
  have ends1 : (s.ftable f).off = (s1.dinodes (s.icache (s.ftable f).ip).inum).size := by
    rw [dinodes1]
    exact ends
  obtain ⟨size, data⟩ := (stored typed all).appended sees typed ends1
  rw [dinodes1] at size
  rw [world1, ← world] at data
  rw [← dinodes] at size
  refine ⟨?_, mid4.names _ List.mem_cons_self, size, data⟩
  have bounded : (s4.dinodes (s.icache (s.ftable f).ip).inum).size ≤ MAXFILE * BSIZE := by
    refine (mid4.sane.sized _ ?_).bounded
    change s4.world.type _ ≠ .free
    rw [writes.type]
    exact base.typed type
  have small : (s.ftable f).off + chunk.length < 2 ^ 32 := by
    have limit : MAXFILE * BSIZE < 2 ^ 32 := by decide
    omega
  rw [ftable, advanced, all]
  split
  · rw [Function.update_self]
    change { s.ftable f with off := ((s.ftable f).off + chunk.length) % 2 ^ 32 } = _
    rw [Nat.mod_eq_of_lt small]
  · rename_i empty
    have none : chunk.length = 0 := by grind
    rw [none]
    rfl

theorem filewriteLoop_step (lenient : Lenient allowed) (f : Fin NFILE) (fuel : Nat)
    (src : List UInt8) (base : Base s) (type : (s.ftable f).type = .inode)
    (writable : (s.ftable f).writable = true) :
    Spec allowed (filewriteLoop p f fuel src) s fun _ s' => Base s' ∧ Writes s.world s'.world := by
  induction fuel generalizing s src with
  | zero => exact Spec.pure ⟨base, Writes.refl _⟩
  | succ fuel ih =>
    rw [filewriteLoop_succ]
    split
    · exact Spec.pure ⟨base, Writes.refl _⟩
    refine Spec.bind (filewriteRound_step lenient base type writable rfl _) ?_
    rintro r s1 ⟨base1, writes, ⟨off, here⟩, _⟩
    split
    · exact Spec.pure ⟨base1, writes⟩
    · split
      · exact Spec.panic (lenient _ (by decide))
      · refine Spec.mono (ih _ base1 (by rw [here]; exact type) (by rw [here]; exact writable)) ?_
        grind [Writes.trans]

theorem write_step (lenient : Lenient allowed) (base : Base s) (f : Fin NFILE) (src : List UInt8)
    (waits : (s.ftable f).type = .pipe → allowed.waits) :
    Spec allowed (filewrite p f src) s fun _ s' => Base s' ∧ Writes s.world s'.world := by
  refine Spec.bind_get ?_
  dsimp only
  split
  · exact Spec.pure ⟨base, Writes.refl _⟩
  rename_i writable
  rw [Bool.not_eq_false] at writable
  split
  · rename_i type
    refine Spec.mono (pipewrite_step base _ src (waits type)) ?_
    rintro _ s1 ⟨base1, world1⟩
    exact ⟨base1, world1 ▸ Writes.refl _⟩
  · rename_i type
    refine Spec.bind (filewriteLoop_step lenient f _ src base type writable) ?_
    rintro left s1 post
    exact Spec.pure post
  · exact Spec.panic (lenient _ (by decide))

end Simple

section Close

/-- A file without references. -/
def File.closed (file : File) : File := { file with ref := 0, type := .none }

theorem refers_closed (file : File) (i : Fin NINODE) : file.closed.refers i = 0 := by
  rfl

/-- The references that are left when a file is closed. -/
theorem refs_closed (type : (s.ftable f).type = .inode) (i : Fin NINODE) :
    (s.outside.less (s.ftable f).ip).refs i =
      cwds s.procs i + opens (Function.update s.ftable f (s.ftable f).closed) i := by
  have total := s.outside.less_refs (refs_file type) 0 i
  have fewer := opens_update s.ftable f (s.ftable f).closed i
  have one : (s.ftable f).refers i = ([((s.ftable f).ip, 0)].map Prod.fst).count i := by
    rw [File.refers, List.map_singleton, List.count_singleton]
    simp only [type, true_and, beq_iff_eq]
  grind [outside_refs, refers_closed]

theorem pipeclose_step (base : Base s) (page : Nat) (writable : Bool) :
    Spec allowed (pipeclose page writable) s fun _ s' => Base s' ∧ s'.world = s.world ∧
      s'.procs = s.procs ∧
      s'.ftable = s.ftable := by
  refine Spec.bind_get ?_
  split
  · exact Spec.modify ⟨base.putPipe _ _, rfl, rfl, rfl⟩
  · exact Spec.pure ⟨base, rfl, rfl, rfl⟩

/-- `fileclose` of a file that is no inode does not show. -/
theorem fileclose_plain (lenient : Lenient allowed) (base : Base s)
    (other : (s.ftable f).type ≠ .inode) :
    Spec allowed (fileclose p f) s fun _ s' => Base s' ∧ s'.world = s.world ∧ s'.procs = s.procs ∧
      (s'.ftable f).type ≠ .inode ∧ ∀ g, g ≠ f → s'.ftable g = s.ftable g := by
  have like : (s.ftable f).closed.Like (s.ftable f) :=
    ⟨iff_of_false (fun closed => FileType.noConfusion closed) other,
      fun closed => FileType.noConfusion closed, fun closed => FileType.noConfusion closed⟩
  have closed := base.putFile f like fun _ => rfl
  have self : ∀ {file : File}, file.type ≠ .inode → ((s.putFile f file).ftable f).type ≠ .inode :=
    by
    grind [putFile_self]
  have others : ∀ (file : File) g, g ≠ f → (s.putFile f file).ftable g = s.ftable g :=
    fun file g apart => Function.update_of_ne apart _ _
  refine Spec.bind_get ?_
  dsimp only
  split
  · exact Spec.panic (lenient _ (by decide))
  split
  · refine Spec.modify ⟨base.putFile f ⟨Iff.rfl, fun _ => rfl, fun _ => rfl⟩ fun zero => ?_, rfl,
      rfl, self other, others _⟩
    change (s.ftable f).ref - 1 = 0 at zero
    omega
  · refine Spec.bind_modify ?_
    split
    · refine Spec.mono (pipeclose_step closed _ _) ?_
      rintro _ s1 ⟨base1, world1, procs1, ftable1⟩
      refine ⟨base1, world1, procs1, ?_⟩
      rw [ftable1]
      exact ⟨self FileType.noConfusion, others _⟩
    · rename_i inode
      exact (other inode).elim
    · exact Spec.pure ⟨closed, rfl, rfl, self FileType.noConfusion, others _⟩

/-- `fileclose` drops the reference of the file with the last one to it. -/
theorem fileclose_step (lenient : Lenient allowed) (base : Base s) (f : Fin NFILE) :
    Spec allowed (fileclose p f) s fun _ s' => Base s' ∧ Drops s.world s'.world ∧
      s'.procs = s.procs := by
  by_cases type : (s.ftable f).type = .inode
  · refine Spec.bind_get ?_
    dsimp only
    split
    · exact Spec.panic (lenient _ (by decide))
    split
    · refine Spec.modify ⟨base.putFile f ⟨Iff.rfl, fun _ => rfl, fun _ => rfl⟩ fun zero => ?_,
        Drops.refl _, rfl⟩
      grind
    · refine Spec.bind_modify ?_
      rw [type]
      refine Spec.mono (iput_step ((base.borrow p type).putFile f (s.ftable f).closed)
        none_locked) ?_
      rintro _ s1 ⟨mid1, drop⟩
      have procs : s1.procs = s.procs := mid1.procs
      have ftable : s1.ftable = Function.update s.ftable f (s.ftable f).closed := mid1.ftable
      refine ⟨⟨fun q => mid1.settle (fun i => ?_) (fun h member => (List.not_mem_nil member).elim)
        q, fun g => ?_, fun g type' writable => ?_⟩, Drops.one drop, procs⟩
      · rw [procs, ftable, ← refs_closed type, List.map_nil, List.count_nil, Nat.add_zero]
      · rw [ftable]
        by_cases here : g = f
        · subst here
          rw [Function.update_self]
          exact fun _ => rfl
        · rw [Function.update_of_ne here]
          exact base.idle g
      · rw [ftable] at type' writable ⊢
        have here : g ≠ f := by
          intro same
          rw [same, Function.update_self] at type'
          cases type'
        have some := opens_pos type'
        rw [Function.update_of_ne here] at type' writable some ⊢
        refine mid1.file base rfl type' writable ?_
        rw [refs_closed type]
        omega
  · refine Spec.mono (fileclose_plain lenient base type) ?_
    rintro _ s1 ⟨base1, world1, procs1, _⟩
    exact ⟨base1, world1 ▸ Drops.refl _, procs1⟩

theorem close_step (lenient : Lenient allowed) (base : Base s) (fd : Int) :
    Spec allowed (sysClose p fd) s fun _ s' => Base s' ∧ Drops s.world s'.world := by
  refine Spec.bind_get ?_
  split
  · exact Spec.pure ⟨base, Drops.refl _⟩
  · rename_i i f _
    refine Spec.bind_modify ?_
    refine Spec.bind (fileclose_step lenient (base.putFd p i none) f) ?_
    rintro _ s1 ⟨base1, drops, _⟩
    exact Spec.pure ⟨base1, drops⟩

theorem closeFiles_step (lenient : Lenient allowed) (base : Base s) (fds : List (Fin NOFILE)) :
    Spec allowed (exit.closeFiles p fds) s fun _ s' => Base s' ∧ Drops s.world s'.world ∧
      (s'.procs p).cwd = (s.procs p).cwd := by
  induction fds generalizing s with
  | nil => exact Spec.pure ⟨base, Drops.refl _, rfl⟩
  | cons fd rest ih =>
    refine Spec.bind_get ?_
    split
    · refine Spec.bind (fileclose_step lenient base _) ?_
      rintro _ s1 ⟨base1, drops, procs⟩
      rw [setTask_eq]
      refine Spec.bind_modify (Spec.mono (ih (base1.putFd p fd none)) ?_)
      rintro _ s2 ⟨base2, later, cwd⟩
      refine ⟨base2, drops.trans later, ?_⟩
      rw [cwd, ← procs, putTask_self]
    · exact ih base

end Close

section Pipes

/-- A file that `filealloc` gives is not in use. -/
theorem filealloc_step (base : Base s) :
    Spec allowed filealloc s fun found s' => Base s' ∧ s'.world = s.world ∧ s'.procs = s.procs ∧
      match found with
      | some f => (s.ftable f).ref = 0 ∧ s'.ftable = Function.update s.ftable
          f { s.ftable f with ref := 1 }
      | none => s'.ftable = s.ftable := by
  refine Spec.mono filealloc_spec ?_
  intro found s1 post
  cases found with
  | none =>
    rw [post.2]
    exact ⟨base, rfl, rfl, rfl⟩
  | some f =>
    obtain ⟨free, rfl⟩ := post
    refine ⟨base.putFile f ⟨Iff.rfl, fun _ => rfl, fun _ => rfl⟩ fun zero => ?_, rfl, rfl,
      free, rfl⟩
    exact (Nat.succ_ne_zero _ zero).elim

theorem fileclose_both (lenient : Lenient allowed) (base : Base s) {g : Fin NFILE}
    (first : (s.ftable f).type ≠ .inode) (second : (s.ftable g).type ≠ .inode) {α : Type} (r : α) :
    Spec allowed (do
      fileclose p f
      fileclose p g
      return r) s fun result s' => result = r ∧ Base s' ∧ s'.world = s.world := by
  refine Spec.bind (fileclose_plain lenient base first) ?_
  rintro _ s1 ⟨base1, world1, _, others⟩
  have still : (s1.ftable g).type ≠ .inode := by
    intro inode
    by_cases same : g = f
    · exact others.1 (same ▸ inode)
    · grind
  refine Spec.bind (fileclose_plain lenient base1 still) ?_
  grind [Spec.pure]

/-- The ends of a new pipe are no inodes; when there is no pipe, nothing shows. -/
theorem pipealloc_step (lenient : Lenient allowed) (base : Base s)
    (kalloc : Option (Nat × (Fin PIPESIZE → UInt8))) :
    Spec allowed (pipealloc p kalloc) s fun found s' => Base s' ∧ s'.world = s.world ∧
      match found with
      | some (f0, f1) => (s'.ftable f0).type = .pipe ∧ (s'.ftable f1).type = .pipe
      | none => True := by
  refine Spec.bind (filealloc_step base) ?_
  rintro found s1 ⟨base1, world1, _, post⟩
  cases found with
  | none => exact Spec.pure ⟨base1, world1, trivial⟩
  | some f0 =>
    obtain ⟨free0, ftable1⟩ := post
    have none0 : (s1.ftable f0).type = .none := by
      rw [ftable1, Function.update_self]
      exact base.idle f0 free0
    have ref0 : (s1.ftable f0).ref = 1 := by rw [ftable1, Function.update_self]
    refine Spec.bind (filealloc_step base1) ?_
    rintro found s2 ⟨base2, world2, _, post⟩
    cases found with
    | none =>
      rw [← post] at none0
      refine Spec.bind (fileclose_plain lenient base2
        (by rw [none0]; exact FileType.noConfusion)) ?_
      grind [Spec.pure]
    | some f1 =>
      obtain ⟨free1, ftable2⟩ := post
      have apart : f0 ≠ f1 := by grind
      have here : s2.ftable f0 = s1.ftable f0 := by rw [ftable2, Function.update_of_ne apart]
      have there : s2.ftable f1 = { s1.ftable f1 with ref := 1 } := by
        rw [ftable2, Function.update_self]
      have none1 : (s2.ftable f1).type = .none := by
        rw [there]
        exact base1.idle f1 free1
      rw [← here] at none0 ref0
      cases kalloc with
      | none =>
        refine Spec.mono (fileclose_both lenient base2 (by rw [none0]; exact FileType.noConfusion)
          (by rw [none1]; exact FileType.noConfusion) none) ?_
        grind
      | some page =>
        -- A file that becomes the end of a pipe was no inode before.
        have piped : ∀ {state : State} {g : Fin NFILE} {file : File}, Base state →
            (state.ftable g).type = .none → file.type = .pipe → file.ref = 1 →
            Base (state.putFile g file) := by
          intro state g file good before after ref
          refine good.putFile g ⟨?_, fun inode => ?_, fun inode => ?_⟩ fun zero => ?_
          · grind
          · rw [after] at inode
            cases inode
          · rw [after] at inode
            cases inode
          · rw [ref] at zero
            cases zero
        refine Spec.bind_modify ?_
        refine Spec.bind_modify ?_
        rw [setFile_eq]
        refine Spec.bind_modify (Spec.pure ⟨piped (piped (base2.putPipe _ _) none0 rfl ref0)
          ?_ rfl ?_, world2.trans world1, ?_, ?_⟩)
        · grind
        · grind
        · change (Function.update (Function.update s2.ftable f0 _) f1 _ f0).type = .pipe
          rw [Function.update_of_ne apart, Function.update_self]
        · rw [putFile_self]

theorem pipe_step (lenient : Lenient allowed) (base : Base s)
    (kalloc : Option (Nat × (Fin PIPESIZE → UInt8))) :
    Spec allowed (sysPipe p kalloc) s fun _ s' => Base s' ∧ s'.world = s.world := by
  refine Spec.bind (pipealloc_step lenient base kalloc) ?_
  rintro found s1 ⟨base1, world1, post⟩
  cases found with
  | none => exact Spec.pure ⟨base1, world1⟩
  | some ends =>
    obtain ⟨rf, wf⟩ := ends
    have reads : (s1.ftable rf).type ≠ .inode := by
      rw [post.1]
      exact FileType.noConfusion
    have writes : (s1.ftable wf).type ≠ .inode := by
      rw [post.2]
      exact FileType.noConfusion
    refine Spec.bind (fdalloc_spec p rf) ?_
    intro found s2 post2
    cases found with
    | none =>
      rw [post2.2]
      refine Spec.mono (fileclose_both lenient base1 reads writes _) ?_
      grind
    | some fd0 =>
      rw [post2.2]
      have base2 := base1.putFd p fd0 (some rf)
      refine Spec.bind (fdalloc_spec p wf) ?_
      intro found s3 post3
      cases found with
      | none =>
        rw [post3.2, setTask_eq]
        refine Spec.bind_modify ?_
        refine Spec.mono (fileclose_both lenient (base2.putFd p fd0 none) reads writes _) ?_
        rintro _ s4 ⟨_, base4, world4⟩
        exact ⟨base4, world4.trans world1⟩
      | some fd1 =>
        rw [post3.2]
        exact Spec.pure ⟨base2.putFd p fd1 (some wf), world1⟩

end Pipes

end Xv6.Fs
