import Xv6.Fs.System

/- The slots of the inode cache. Open files and current directories keep theirs, and a call
needs up to three more; iget panics when there is none left. NINODE is less than what the
processes can keep. -/
namespace Xv6.Fs

open Exec

/-- The slots with references. -/
def slotsInUse (s : State) : Nat := (Finset.univ.filter fun i => 0 < (s.icache i).ref).card

/-- Between two calls they are those of the open files and current directories. -/
theorem Base.slotsInUse {s : State} (base : Base s) :
    slotsInUse s = (Finset.univ.filter fun i => 0 < s.outside.refs i).card := by
  have counted : ∀ i, (s.icache i).ref = s.outside.refs i := by
    intro i
    rw [(base.mid 0).counted i, List.map_nil, List.count_nil, Nat.add_zero]
  unfold Fs.slotsInUse
  simp only [counted]

section Runs

variable {im : Mkfs.Image} {files : List Mkfs.Source} {devsw : Int → Option Device}
  {calls : List (Fin NPROC × Call)} {s : State} {p : Fin NPROC} {call : Call}

/-- After any run on an image of mkfs, a call that finds as many unused slots as it may need
does not run out of them. -/
theorem iget_finds_slot (made : Mkfs.mkfs files = some im) (few : files.length < NINODES - 1)
    (room : im.freeblock ≤ FSSIZE) (reached : runSystem im devsw calls = some s)
    (enough : slotsInUse s + call.slots ≤ NINODE) :
    callStep s (p, call) ≠ .panic "iget: no inodes" := by
  have base := run_system_base (Mkfs.mkfs_made made few room) reached
  rw [base.slotsInUse] at enough
  exact callStep_never base (by decide) (Or.inl enough) (List.mem_singleton_self _)

theorem iget_finds_slot_mkdir :
    ∃ im s, Mkfs.mkfs [] = some im ∧ runSystem im (fun _ => none) [] = some s ∧
    slotsInUse s + (Call.sysMkdir [47, 97]).slots ≤ NINODE ∧
    callStep s (0, .sysMkdir [47, 97]) ≠ .panic "iget: no inodes" := by
  obtain ⟨im, made, room, s, ran, enough⟩ : Mkfs.Yields [] fun im =>
      ∃ s ∈ runSystem im (fun _ => none) [], slotsInUse s + (Call.sysMkdir [47, 97]).slots ≤
        NINODE := by
    decide +kernel
  exact ⟨im, s, made, ran, enough, iget_finds_slot made (by decide) room ran enough⟩

/-- Empty files with names of one letter. -/
def letters (n : Nat) : List Mkfs.Source := (List.range n).map fun i => ⟨[UInt8.ofNat (97 + i)], []⟩

/-- Process `p` opens `n` of them, from number `first` on. -/
def openLetters (p : Fin NPROC) (first n : Nat) : List (Fin NPROC × Call) :=
  (List.range n).map fun i => (p, .sysOpen [47, UInt8.ofNat (97 + first + i)] O_RDONLY)

/-- Four processes keep 49 files open, and the root directory as their own. -/
def fiftyInodes : List (Fin NPROC × Call) :=
  [(0, .fork (some 1)), (0, .fork (some 2)), (0, .fork (some 3))] ++
    openLetters 0 0 16 ++ openLetters 1 16 16 ++ openLetters 2 32 16 ++ openLetters 3 48 1

/-- Neither `sys_open` nor `namei` gets to the fiftieth file any more. -/
theorem fiftyInodes_stops : Mkfs.Yields (letters 50) fun im =>
    ∃ s ∈ runSystem im (fun _ => none) fiftyInodes, (s.procs 3).cwd ≠ none ∧
      (namei 3 [47, 146] s).message = some "iget: no inodes" ∧
      (callStep s (3, .sysOpen [47, UInt8.ofNat (97 + 49)] O_RDONLY)).message =
        some "iget: no inodes" := by
  decide +kernel

/-- The fiftieth file cannot be opened any more. -/
theorem inode_cache_runs_out : ∃ im s, Mkfs.mkfs (letters 50) = some im ∧ im.freeblock ≤ FSSIZE ∧
    runSystem im (fun _ => none) fiftyInodes = some s ∧
    callStep s (3, .sysOpen [47, UInt8.ofNat (97 + 49)] O_RDONLY) = .panic "iget: no inodes" := by
  obtain ⟨im, made, room, s, ran, -, -, stopped⟩ := fiftyInodes_stops
  exact ⟨im, s, made, room, ran, Outcome.message_eq_some.mp stopped⟩

end Runs

end Xv6.Fs
