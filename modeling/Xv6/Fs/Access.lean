import Xv6.Fs.Frame
import Xv6.Mkfs

/- Which opens the permission bits of an inode let through. -/
namespace Xv6.Fs

open Exec hiding panic
open CString

/-- A file gives no more access than the bits for others allow. -/
def WithinMode (file : File) (mode : Nat) : Prop :=
  (file.readable = true → mode &&& S_IROTH ≠ 0) ∧ (file.writable = true → mode &&& S_IWOTH ≠ 0)

instance (file : File) (mode : Nat) : Decidable (WithinMode file mode) :=
  inferInstanceAs (Decidable (_ ∧ _))

section Open

variable {p : Fin NPROC} {path : List UInt8} {omode : Int} {s s' : State}

/-- An inode that comes through the plain branch has passed the two checks. -/
theorem openInode_checked {ip : Fin NINODE} (found : openInode p path omode s = .ok (some ip, s'))
    (foreign : (s'.procs p).uid ≠ 0 ∧ (s'.procs p).uid ≠ (s'.icache ip).din.uid) :
    (omode = O_RDONLY ∨ omode = O_RDWR → (s'.icache ip).din.mode &&& S_IROTH ≠ 0) ∧
    (omode = O_WRONLY ∨ omode = O_RDWR → (s'.icache ip).din.mode &&& S_IWOTH ≠ 0) := by
  unfold openInode at found
  split at found
  · rename_i creates
    -- O_CREATE is none of the three modes that the checks compare with.
    constructor
    · rintro (rfl | rfl) <;> exact absurd creates (by decide)
    · rintro (rfl | rfl) <;> exact absurd creates (by decide)
  · obtain ⟨walked, s1, _, found⟩ := bind_eq_ok.mp found
    cases walked with
    | none => cases found
    | some i =>
      obtain ⟨_, s2, _, found⟩ := bind_eq_ok.mp found
      obtain ⟨_, s3, read, found⟩ := bind_eq_ok.mp found
      cases read
      have dropped : ∀ {t : State}, (do iunlockput p i; return (none : Option (Fin NINODE)) :
          Exec State _) t ≠ .ok (some ip, s') := by
        intro t returned
        obtain ⟨_, _, _, returned⟩ := bind_eq_ok.mp returned
        cases returned
      split at found
      · exact (dropped found).elim
      split at found
      · exact (dropped found).elim
      · rename_i mayRead
        split at found
        · exact (dropped found).elim
        · rename_i mayWrite
          cases found
          omega

/-- What a successful `sys_open` leaves. -/
structure Opened (p : Fin NPROC) (path : List UInt8) (omode : Int) (s s' : State) (f : Fin NFILE) :
    Prop where
  readable : (s'.ftable f).readable = !hasBits omode O_WRONLY
  writable : (s'.ftable f).writable = (hasBits omode O_WRONLY || hasBits omode O_RDWR)
  uid : (s'.procs p).uid = (s.procs p).uid
  checked : (s.procs p).uid ≠ 0 → (s.procs p).uid ≠ (s'.icache (s'.ftable f).ip).din.uid →
    (omode = O_RDONLY ∨ omode = O_RDWR → (s'.icache (s'.ftable f).ip).din.mode &&& S_IROTH ≠ 0) ∧
    (omode = O_WRONLY ∨ omode = O_RDWR → (s'.icache (s'.ftable f).ip).din.mode &&& S_IWOTH ≠ 0)

theorem iunlock_state {i : Fin NINODE} : Spec Stops.all (iunlock p i) s fun _ s' =>
    s' = s.setSlot i { s.icache i with lock := none } := by
  refine Spec.bind_get ?_
  split
  · exact Spec.panic trivial
  · exact Spec.modify rfl

theorem sysOpen_opened {fd : Int} {n : Fin NOFILE} {f : Fin NFILE}
    (returned : sysOpen p path omode s = .ok (fd, s')) (file : argfd p fd s' = some (n, f)) :
    Opened p path omode s s' f := by
  have success : fd ≠ -1 := by
    rintro rfl
    simp [argfd] at file
  obtain ⟨inode, s1, found, returned⟩ := bind_eq_ok.mp returned
  cases inode with
  | none =>
    cases returned
    exact (success rfl).elim
  | some ip =>
    have procs : s1.procs = s.procs :=
      congrArg (fun t => t.1) ((keeps_openInode p path omode).holds _ _ _ found)
    obtain ⟨fresh, s2, allocated, returned⟩ := bind_eq_ok.mp returned
    have second := (@filealloc_spec Stops.all s1).ok allocated
    cases fresh with
    | none =>
      obtain ⟨_, _, _, returned⟩ := bind_eq_ok.mp returned
      cases returned
      exact (success rfl).elim
    | some g =>
      obtain ⟨_, rfl⟩ := second
      obtain ⟨slot, s3, placed, returned⟩ := bind_eq_ok.mp returned
      have third := (@fdalloc_spec Stops.all _ p g).ok placed
      cases slot with
      | none =>
        obtain ⟨_, _, _, returned⟩ := bind_eq_ok.mp returned
        obtain ⟨_, _, _, returned⟩ := bind_eq_ok.mp returned
        cases returned
        exact (success rfl).elim
      | some k =>
        obtain ⟨_, rfl⟩ := third
        obtain ⟨_, s4, unlocked, returned⟩ := bind_eq_ok.mp returned
        have fourth := iunlock_state.ok unlocked
        obtain ⟨_, s5, changed, returned⟩ := bind_eq_ok.mp returned
        have fifth : s5 = s4.putFile g { s4.ftable g with
            type := .inode
            ip := ip
            off := 0
            readable := !hasBits omode O_WRONLY
            writable := hasBits omode O_WRONLY || hasBits omode O_RDWR } := by
          cases changed
          rfl
        cases returned
        have task : s'.procs p = { s1.procs p with
            ofile := Function.update (s1.procs p).ofile k (some g) } := by
          rw [fifth, fourth]
          exact putTask_self _ _ _
        have din : (s'.icache ip).din = (s1.icache ip).din := by
          rw [fifth, fourth]
          change (Function.update s1.icache ip _ ip).din = _
          rw [Function.update_self]
          rfl
        -- The file is the one that was put into the free descriptor.
        have same : f = g := by
          unfold argfd at file
          split at file
          · have held : (s'.procs p).ofile k = some g := by
              rw [task]
              exact Function.update_self _ _ _
            grind
          · cases file
        subst same
        have entry := congrFun (congrArg State.ftable fifth) f
        rw [putFile_self] at entry
        refine ⟨by rw [entry], by rw [entry], by rw [task, procs], ?_⟩
        rw [entry]
        rw [din]
        intro notRoot foreign
        refine openInode_checked found ⟨?_, ?_⟩
        · rw [procs]
          exact notRoot
        · rw [procs]
          exact foreign

end Open

/-- The image of one file "a", which root owns and nobody else may use, and the state in
which root and user 1000 run in the root directory. -/
def twoUsers (im : Mkfs.Image) : State :=
  { (im.boot fun _ => none).setSlot 0 ⟨ROOTDEV, ROOTINO, 2, none, false, Dinode.zero⟩ with
    procs := fun p =>
      if p = 0 then ⟨0, 0, some 0, fun _ => none⟩
      else if p = 1 then ⟨1000, 1000, some 0, fun _ => none⟩
      else ⟨0, 0, none, fun _ => none⟩ }

/-- The file that user 1000 gets from opening "/a" with the given flags. -/
def openA (omode : Int) : Option (State × Int × State × Fin NFILE) :=
  (Mkfs.mkfs [⟨[97], []⟩]).bind fun im =>
    (sysOpen 1 [47, 97] omode (twoUsers im)).toOption.bind fun (fd, s') =>
      (argfd 1 fd s').map fun (_, f) => (twoUsers im, fd, s', f)

/-- With O_CREATE user 1000 may read root's file, whose mode is 0. -/
theorem open_create_unchecked : ¬ ∀ (p : Fin NPROC) (path : List UInt8) (omode : Int) (s s' : State)
    (fd : Int) (n : Fin NOFILE) (f : Fin NFILE), sysOpen p path omode s = .ok (fd, s') →
    argfd p fd s' = some (n, f) → (s.dinodes (s'.icache (s'.ftable f).ip).inum).type ≠ .free →
    (s.procs p).uid ≠ 0 → (s.procs p).uid ≠ (s'.icache (s'.ftable f).ip).din.uid →
    WithinMode (s'.ftable f) (s'.icache (s'.ftable f).ip).din.mode := by
  intro claim
  have evaluated : ((openA O_CREATE).bind fun (s, _, s', f) =>
      if (s.dinodes (s'.icache (s'.ftable f).ip).inum).type ≠ .free ∧ (s.procs 1).uid ≠ 0 ∧
        (s.procs 1).uid ≠ (s'.icache (s'.ftable f).ip).din.uid ∧
        ¬ WithinMode (s'.ftable f) (s'.icache (s'.ftable f).ip).din.mode then some () else none) =
      some () := by decide +kernel
  obtain ⟨⟨s, fd, s', f⟩, opened, checked⟩ := Option.bind_eq_some_iff.mp evaluated
  dsimp only at checked
  split at checked
  · rename_i facts
    obtain ⟨im, made, opened⟩ := Option.bind_eq_some_iff.mp opened
    obtain ⟨⟨fd', t⟩, returned, opened⟩ := Option.bind_eq_some_iff.mp opened
    obtain ⟨⟨n, g⟩, file, same⟩ := Option.map_eq_some_iff.mp opened
    cases same
    exact facts.2.2.2 (claim 1 _ O_CREATE _ _ _ n f (Outcome.toOption_eq_some.mp returned)
      file facts.1 facts.2.1 facts.2.2.1)
  · cases checked

section Exact

variable {p : Fin NPROC} {path : List UInt8} {omode : Int} {s s' : State} {fd : Int}
  {n : Fin NOFILE} {f : Fin NFILE}

/-- A successful open by a user who is neither root nor the owner stays within the mode of the
inode exactly if the flags are one of the three plain modes, which the checks compare
with, or ask for nothing that the mode does not give to others. -/
theorem open_within_mode_iff (returned : sysOpen p path omode s = .ok (fd, s'))
    (file : argfd p fd s' = some (n, f)) (notRoot : (s.procs p).uid ≠ 0)
    (foreign : (s.procs p).uid ≠ (s'.icache (s'.ftable f).ip).din.uid) :
    WithinMode (s'.ftable f) (s'.icache (s'.ftable f).ip).din.mode ↔
      (omode = O_RDONLY ∨ omode = O_WRONLY ∨ omode = O_RDWR) ∨
      ((hasBits omode O_WRONLY = true ∨ (s'.icache (s'.ftable f).ip).din.mode &&& S_IROTH ≠ 0) ∧
        (hasBits omode O_WRONLY = false ∧ hasBits omode O_RDWR = false ∨
          (s'.icache (s'.ftable f).ip).din.mode &&& S_IWOTH ≠ 0)) := by
  have opened := sysOpen_opened returned file
  have checked := opened.checked notRoot foreign
  unfold WithinMode
  rw [opened.readable, opened.writable]
  constructor
  · rintro ⟨reads, writes⟩
    refine Or.inr ⟨?_, ?_⟩
    · cases known : hasBits omode O_WRONLY with
      | true => exact Or.inl rfl
      | false => exact Or.inr (reads (by rw [known]; rfl))
    · cases known : hasBits omode O_WRONLY || hasBits omode O_RDWR with
      | true => exact Or.inr (writes known)
      | false => exact Or.inl (Bool.or_eq_false_iff.mp known)
  · rintro ((rfl | rfl | rfl) | ⟨reads, writes⟩)
    · exact ⟨fun _ => checked.1 (Or.inl rfl), fun writes => absurd writes (by decide)⟩
    · exact ⟨fun reads => absurd reads (by decide), fun _ => checked.2 (Or.inl rfl)⟩
    · exact ⟨fun _ => checked.1 (Or.inr rfl), fun _ => checked.2 (Or.inr rfl)⟩
    · constructor
      · intro readable
        refine reads.resolve_left fun set => ?_
        rw [set] at readable
        cases readable
      · intro writable
        refine writes.resolve_left fun clear => ?_
        rw [clear.1, clear.2] at writable
        cases writable

/-- User 1000 opens "/a" with O_CREATE and O_WRONLY: the mode 0 is exceeded. -/
theorem open_within_mode_iff_writeOnly : ∃ (s s' : State) (fd : Int) (f : Fin NFILE),
    sysOpen 1 [47, 97] 0x201 s = .ok (fd, s') ∧
    (WithinMode (s'.ftable f) (s'.icache (s'.ftable f).ip).din.mode ↔
      ((0x201 : Int) = O_RDONLY ∨ (0x201 : Int) = O_WRONLY ∨ (0x201 : Int) = O_RDWR) ∨
      ((hasBits 0x201 O_WRONLY = true ∨ (s'.icache (s'.ftable f).ip).din.mode &&& S_IROTH ≠ 0) ∧
        (hasBits 0x201 O_WRONLY = false ∧ hasBits 0x201 O_RDWR = false ∨
          (s'.icache (s'.ftable f).ip).din.mode &&& S_IWOTH ≠ 0))) := by
  have evaluated : ((openA 0x201).bind fun (s, _, s', f) =>
      if (s.procs 1).uid ≠ 0 ∧ (s.procs 1).uid ≠ (s'.icache (s'.ftable f).ip).din.uid then some ()
      else none) = some () := by decide +kernel
  obtain ⟨⟨s, fd, s', f⟩, opened, checked⟩ := Option.bind_eq_some_iff.mp evaluated
  dsimp only at checked
  split at checked
  · rename_i facts
    obtain ⟨im, made, opened⟩ := Option.bind_eq_some_iff.mp opened
    obtain ⟨⟨fd', t⟩, returned, opened⟩ := Option.bind_eq_some_iff.mp opened
    obtain ⟨⟨n, g⟩, file, same⟩ := Option.map_eq_some_iff.mp opened
    cases same
    have returned := Outcome.toOption_eq_some.mp returned
    exact ⟨_, _, _, _, returned, open_within_mode_iff returned file facts.1 facts.2⟩
  · cases checked

end Exact

end Xv6.Fs
