import Xv6.Fs.Dir

/- file.c, the ends of a pipe.c pipe, and the system calls of sysfile.c but exec. Process
`p` makes the call; fetching its arguments has succeeded. -/
namespace Xv6.Fs

open Exec hiding panic
open Namecache CString

section Files

def setFile (f : Fin NFILE) (change : File → File) : Exec State Unit :=
  modify fun s => { s with ftable := Function.update s.ftable f (change (s.ftable f)) }

def setTask (p : Fin NPROC) (change : Task → Task) : Exec State Unit :=
  modify fun s => { s with procs := Function.update s.procs p (change (s.procs p)) }

def setPipe (page : Nat) (pipe : Option Pipe) : Exec State Unit :=
  modify fun s => { s with pipes := Function.update s.pipes page pipe }

/-- The page is given back when both ends are closed. -/
def pipeclose (page : Nat) (writable : Bool) : Exec State Unit := do
  let s ← get
  match s.pipes page with
  | some pipe =>
    let pipe := pipe.close writable
    setPipe page (if pipe.readopen = false ∧ pipe.writeopen = false then none else some pipe)
  | none => return

def piperead (page n : Nat) : Exec State Int := do
  let s ← get
  match s.pipes page with
  | some pipe =>
    match pipe.readSection false n with
    | (pipe, .done bytes) =>
      setPipe page (some pipe)
      return bytes.length
    | (_, .failed) => return -1
    | (_, .sleep) => wait
  | none => wait

/-- A writer that has to wait for room is not followed any further. -/
def pipewrite (page : Nat) (src : List UInt8) : Exec State Int := do
  let s ← get
  match s.pipes page with
  | some pipe =>
    match pipe.writeLoop false src with
    | (pipe, .done) =>
      setPipe page (some pipe)
      return src.length
    | (pipe, .failed _) =>
      setPipe page (some pipe)
      return -1
    | (_, .sleep _) => wait
  | none => wait

def filealloc : Exec State (Option (Fin NFILE)) := do
  let s ← get
  match (List.finRange NFILE).find? fun f => (s.ftable f).ref = 0 with
  | some f =>
    setFile f fun file => { file with ref := 1 }
    return some f
  | none => return none

def filedup (f : Fin NFILE) : Exec State Unit := do
  let s ← get
  if (s.ftable f).ref < 1 then Exec.panic "filedup"
  else setFile f fun file => { file with ref := file.ref + 1 }

def fileclose (p : Fin NPROC) (f : Fin NFILE) : Exec State Unit := do
  let s ← get
  let ff := s.ftable f
  if ff.ref < 1 then Exec.panic "fileclose"
  else if 0 < ff.ref - 1 then setFile f fun file => { file with ref := file.ref - 1 }
  else
    setFile f fun file => { file with ref := 0, type := .none }
    match ff.type with
    | .pipe => pipeclose ff.pipe ff.writable
    | .inode => iput p ff.ip
    | .none => return

/-- Without the `struct stat`. -/
def filestat (p : Fin NPROC) (f : Fin NFILE) : Exec State Int := do
  let s ← get
  match (s.ftable f).type with
  | .inode =>
    ilock p (s.ftable f).ip
    iunlock p (s.ftable f).ip
    return 0
  | _ => return -1

/-- `f->off += r` -/
def advance (f : Fin NFILE) (r : Int) : Exec State Unit :=
  setFile f fun file => { file with off := (file.off + r.toNat) % 2 ^ 32 }

def fileread (p : Fin NPROC) (f : Fin NFILE) (n : Nat) : Exec State Int := do
  let s ← get
  let file := s.ftable f
  if file.readable = false then return -1
  else
    match file.type with
    | .pipe => piperead file.pipe n
    | .inode =>
      ilock p file.ip
      let (r, _) ← readi file.ip file.off n
      when (0 < r) (advance f r)
      iunlock p file.ip
      return r
    | .none => Exec.panic "fileread"

/-- The loop of `filewrite`: writes at most `max` bytes in a round, and returns how many
bytes are left when it ends. -/
def filewriteLoop (p : Fin NPROC) (f : Fin NFILE) : Nat → List UInt8 → Exec State Nat
  | 0, src => return src.length
  | fuel + 1, src =>
    if src.length = 0 then return 0
    else do
      let s ← get
      let file := s.ftable f
      let n1 := min src.length ((MAXOPBLOCKS - 1 - 1 - 2) / 2 * 512)
      ilock p file.ip
      let r ← writei file.ip (src.take n1) file.off
      when (0 < r) (advance f r)
      iunlock p file.ip
      if r < 0 then return src.length
      else if r ≠ n1 then Exec.panic "short filewrite"
      else filewriteLoop p f fuel (src.drop n1)

def filewrite (p : Fin NPROC) (f : Fin NFILE) (src : List UInt8) : Exec State Int := do
  let s ← get
  let file := s.ftable f
  if file.writable = false then return -1
  else
    match file.type with
    | .pipe => pipewrite file.pipe src
    | .inode =>
      let left ← filewriteLoop p f src.length src
      return if left = 0 then src.length else -1
    | .none => Exec.panic "filewrite"

end Files

section Calls

def O_RDONLY : Int := 0x000
def O_WRONLY : Int := 0x001
def O_RDWR : Int := 0x002
def O_CREATE : Int := 0x200
def S_IROTH : Nat := 0o004
def S_IWOTH : Nat := 0o002

/-- `x & mask`, as a truth value, for a 32 bit `x`. -/
def hasBits (x mask : Int) : Bool := (x % 2 ^ 32).toNat &&& mask.toNat != 0

def argfd (p : Fin NPROC) (fd : Int) (s : State) : Option (Fin NOFILE × Fin NFILE) :=
  if inside : 0 ≤ fd ∧ fd.toNat < NOFILE then
    ((s.procs p).ofile ⟨fd.toNat, inside.2⟩).map fun f => (⟨fd.toNat, inside.2⟩, f)
  else none

def fdalloc (p : Fin NPROC) (f : Fin NFILE) : Exec State (Option (Fin NOFILE)) := do
  let s ← get
  match (List.finRange NOFILE).find? fun fd => (s.procs p).ofile fd = none with
  | some fd =>
    setTask p fun task => { task with ofile := Function.update task.ofile fd (some f) }
    return some fd
  | none => return none

def sysDup (p : Fin NPROC) (fd : Int) : Exec State Int := do
  let s ← get
  match argfd p fd s with
  | none => return -1
  | some (_, f) =>
    match ← fdalloc p f with
    | none => return -1
    | some new =>
      filedup f
      return new.val

def sysRead (p : Fin NPROC) (fd : Int) (n : Nat) : Exec State Int := do
  let s ← get
  match argfd p fd s with
  | none => return -1
  | some (_, f) => fileread p f n

def sysWrite (p : Fin NPROC) (fd : Int) (src : List UInt8) : Exec State Int := do
  let s ← get
  match argfd p fd s with
  | none => return -1
  | some (_, f) => filewrite p f src

def sysClose (p : Fin NPROC) (fd : Int) : Exec State Int := do
  let s ← get
  match argfd p fd s with
  | none => return -1
  | some (i, f) =>
    setTask p fun task => { task with ofile := Function.update task.ofile i none }
    fileclose p f
    return 0

def sysFstat (p : Fin NPROC) (fd : Int) : Exec State Int := do
  let s ← get
  match argfd p fd s with
  | none => return -1
  | some (_, f) => filestat p f

/-- A change of the inode in slot `i`, followed by `iupdate`. -/
def change (i : Fin NINODE) (c : Change) : Exec State Unit := do
  setDin i c.apply
  iupdate i

def sysLink (p : Fin NPROC) (old new : List UInt8) : Exec State Int := do
  match ← namei p old with
  | none => return -1
  | some ip =>
    ilock p ip
    let s ← get
    if (s.icache ip).din.type = .dir then
      iunlockput p ip
      return -1
    else
      change ip .link
      iunlock p ip
      match ← nameiparent p new with
      | none => bad ip
      | some (dp, name) =>
        ilock p dp
        let s ← get
        if (s.icache dp).dev ≠ (s.icache ip).dev then
          iunlockput p dp
          bad ip
        else
          let linked ← dirlink p dp name (s.icache ip).inum
          iunlockput p dp
          if linked < 0 then bad ip
          else
            iput p ip
            return 0
where
  bad (ip : Fin NINODE) : Exec State Int := do
    ilock p ip
    change ip .unlink
    iunlockput p ip
    return -1

/-- Is the directory dp empty except for "." and ".." ? -/
def isdirempty (i : Fin NINODE) : Exec State Bool := do
  let s ← get
  loop (offsets (2 * DIRENTSIZE) (s.icache i).din.size)
where
  loop : List Nat → Exec State Bool
    | [] => return true
    | off :: rest => do
      let de ← readDirent "isdirempty: readi" i off
      if de.inum ≠ 0 then return false else loop rest

def sysUnlink (p : Fin NPROC) (path : List UInt8) : Exec State Int := do
  match ← nameiparent p path with
  | none => return -1
  | some (dp, name) =>
    ilock p dp
    -- Cannot unlink "." or "..".
    if namecmp name [46] = 0 ∨ namecmp name [46, 46] = 0 then bad dp
    else
      match ← dirlookup dp name with
      | none => bad dp
      | some (ip, off) =>
        ilock p ip
        let s ← get
        if (s.icache ip).din.nlink < 1 then Exec.panic "unlink: nlink < 1"
        else
          let type := (s.icache ip).din.type
          let empty ← (if type = .dir then isdirempty ip else pure true)
          if empty = false then
            iunlockput p ip
            bad dp
          else
            invalidate ip
            invalidate dp
            let n ← writei dp (List.replicate DIRENTSIZE 0) off
            if n ≠ DIRENTSIZE then Exec.panic "unlink: writei"
            else
              when (type = .dir) (change dp .unlink)
              iunlockput p dp
              change ip .unlink
              iunlockput p ip
              return 0
where
  bad (dp : Fin NINODE) : Exec State Int := do
    iunlockput p dp
    return -1
  invalidate (i : Fin NINODE) : Exec State Unit :=
    modify fun s => { s with
      namecache := namecacheInvalidate s.namecache (s.icache i).dev (s.icache i).inum }

/-- The inode that was found or made, locked. -/
def create (p : Fin NPROC) (path : List UInt8) (type : Itype) (major minor : Int) :
    Exec State (Option (Fin NINODE)) := do
  match ← nameiparent p path with
  | none => return none
  | some (dp, name) =>
    ilock p dp
    match ← dirlookup dp name with
    | some (ip, _) =>
      iunlockput p dp
      ilock p ip
      let s ← get
      if type = .file ∧ (s.icache ip).din.type = .file then return some ip
      else
        iunlockput p ip
        return none
    | none =>
      let ip ← ialloc p type
      ilock p ip
      change ip (.create major minor)
      let s ← get
      when (type = .dir) do
        -- Create . and .. entries.
        change dp .link
        dots ip (s.icache ip).inum (s.icache dp).inum
      let linked ← dirlink p dp name (s.icache ip).inum
      if linked < 0 then Exec.panic "create: dirlink"
      else
        iunlockput p dp
        return some ip
where
  dots (ip : Fin NINODE) (inum parent : Nat) : Exec State Unit := do
    let linked ← dirlink p ip [46] inum
    if linked < 0 then Exec.panic "create dots"
    else
      let linked ← dirlink p ip [46, 46] parent
      when (linked < 0) (Exec.panic "create dots")

/-- The part of `sys_open` in front of the file: the inode it opens, locked. -/
def openInode (p : Fin NPROC) (path : List UInt8) (omode : Int) :
    Exec State (Option (Fin NINODE)) := do
  if hasBits omode O_CREATE then create p path .file 0 0
  else
    match ← namei p path with
    | none => return none
    | some ip =>
      ilock p ip
      let s ← get
      let uid := (s.procs p).uid
      let din := (s.icache ip).din
      if din.type = .dir ∧ omode ≠ O_RDONLY then
        iunlockput p ip
        return none
      else if (omode = O_RDONLY ∨ omode = O_RDWR) ∧ (uid ≠ 0 ∧ uid ≠ din.uid) ∧
          din.mode &&& S_IROTH = 0 then
        iunlockput p ip
        return none
      else if (omode = O_WRONLY ∨ omode = O_RDWR) ∧ (uid ≠ 0 ∧ uid ≠ din.uid) ∧
          din.mode &&& S_IWOTH = 0 then
        iunlockput p ip
        return none
      else return some ip

def sysOpen (p : Fin NPROC) (path : List UInt8) (omode : Int) : Exec State Int := do
  match ← openInode p path omode with
  | none => return -1
  | some ip =>
    match ← filealloc with
    | none =>
      iunlockput p ip
      return -1
    | some f =>
      match ← fdalloc p f with
      | none =>
        fileclose p f
        iunlockput p ip
        return -1
      | some fd =>
        iunlock p ip
        setFile f fun file => { file with
          type := .inode
          ip := ip
          off := 0
          readable := !hasBits omode O_WRONLY
          writable := hasBits omode O_WRONLY || hasBits omode O_RDWR }
        return fd.val

def sysMkdir (p : Fin NPROC) (path : List UInt8) : Exec State Int := do
  match ← create p path .dir 0 0 with
  | none => return -1
  | some ip =>
    iunlockput p ip
    return 0

def sysMknod (p : Fin NPROC) (path : List UInt8) (major minor : Int) : Exec State Int := do
  match ← create p path .dev major minor with
  | none => return -1
  | some ip =>
    iunlockput p ip
    return 0

def sysChdir (p : Fin NPROC) (path : List UInt8) : Exec State Int := do
  match ← namei p path with
  | none => return -1
  | some ip =>
    ilock p ip
    let s ← get
    if (s.icache ip).din.type ≠ .dir then
      iunlockput p ip
      return -1
    else
      iunlock p ip
      match (s.procs p).cwd with
      | some cwd => iput p cwd
      | none => wait
      setTask p fun task => { task with cwd := some ip }
      return 0

def sysChmod (p : Fin NPROC) (path : List UInt8) (mode : Int) : Exec State Int := do
  match ← namei p path with
  | none => return -1
  | some ip =>
    ilock p ip
    let s ← get
    -- Only the owner or root may change the permissions.
    if (s.procs p).uid ≠ 0 ∧ (s.procs p).uid ≠ (s.icache ip).din.uid then
      iunlockput p ip
      return -1
    else
      change ip (.chmod mode)
      iunlockput p ip
      return 0

def sysChown (p : Fin NPROC) (path : List UInt8) (uid : Int) : Exec State Int := do
  let s ← get
  -- Only root may change the owner.
  if (s.procs p).uid ≠ 0 then return -1
  else
    match ← namei p path with
    | none => return -1
    | some ip =>
      ilock p ip
      change ip (.chown uid)
      iunlockput p ip
      return 0

/-- `kalloc` is the page it returns, with what is in it. -/
def pipealloc (p : Fin NPROC) (kalloc : Option (Nat × (Fin PIPESIZE → UInt8))) :
    Exec State (Option (Fin NFILE × Fin NFILE)) := do
  match ← filealloc with
  | none => return none
  | some f0 =>
    match ← filealloc with
    | none =>
      fileclose p f0
      return none
    | some f1 =>
      match kalloc with
      | none =>
        fileclose p f0
        fileclose p f1
        return none
      | some (page, data) =>
        setPipe page (some (Pipe.alloc data))
        setFile f0 fun file => { file with
          type := .pipe
          readable := true
          writable := false
          pipe := page }
        setFile f1 fun file => { file with
          type := .pipe
          readable := false
          writable := true
          pipe := page }
        return some (f0, f1)

def sysPipe (p : Fin NPROC) (kalloc : Option (Nat × (Fin PIPESIZE → UInt8))) : Exec State Int := do
  match ← pipealloc p kalloc with
  | none => return -1
  | some (rf, wf) =>
    match ← fdalloc p rf with
    | none =>
      fileclose p rf
      fileclose p wf
      return -1
    | some fd0 =>
      match ← fdalloc p wf with
      | none =>
        setTask p fun task => { task with ofile := Function.update task.ofile fd0 none }
        fileclose p rf
        fileclose p wf
        return -1
      | some _ => return 0

/-- What `fork` does for the files of the child, process `q`. -/
def fork (p q : Fin NPROC) : Exec State Int := do
  let s ← get
  dupFiles (List.finRange NOFILE)
  match (s.procs p).cwd with
  | some cwd =>
    let _ ← idup cwd
    setTask q fun task => { task with cwd := some cwd, uid := (s.procs p).uid, gid :=
      (s.procs p).gid }
    return 0
  | none => wait
where
  dupFiles : List (Fin NOFILE) → Exec State Unit
    | [] => return
    | fd :: rest => do
      let s ← get
      match (s.procs p).ofile fd with
      | some f =>
        filedup f
        setTask q fun task => { task with ofile := Function.update task.ofile fd (some f) }
        dupFiles rest
      | none => dupFiles rest

/-- What `exit` does for the files of the process. -/
def exit (p : Fin NPROC) : Exec State Int := do
  if p = 0 then Exec.panic "init exiting"
  else
    closeFiles (List.finRange NOFILE)
    let s ← get
    match (s.procs p).cwd with
    | some cwd =>
      iput p cwd
      setTask p fun task => { task with cwd := none }
      return 0
    | none => wait
where
  closeFiles : List (Fin NOFILE) → Exec State Unit
    | [] => return
    | fd :: rest => do
      let s ← get
      match (s.procs p).ofile fd with
      | some f =>
        fileclose p f
        setTask p fun task => { task with ofile := Function.update task.ofile fd none }
        closeFiles rest
      | none => closeFiles rest

end Calls

end Xv6.Fs
