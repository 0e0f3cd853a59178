import Xv6.Lib.Runs
import Xv6.Users
import Xv6.Proc

/- sysproc.c: the calls that read or write credentials, and the runs in which any
number of processes make them in any order. -/
namespace Xv6.Credentials

open Runs Users Process

variable {q q' : Fin NPROC}

structure Kernel where
  ptable : Ptable
  accounts : Accounts

def Kernel.uid (k : Kernel) (p : Fin NPROC) : Int := (k.ptable.proc p).uid

def Kernel.Live (k : Kernel) (p : Fin NPROC) : Prop := (k.ptable.proc p).state ≠ .unused

instance (k : Kernel) (p : Fin NPROC) : Decidable (k.Live p) :=
  inferInstanceAs (Decidable ((k.ptable.proc p).state ≠ .unused))

def Kernel.setCreds (k : Kernel) (p : Fin NPROC) (uid gid : Int) : Kernel :=
  { k with ptable := k.ptable.modify p fun proc => { proc with uid := uid, gid := gid } }

def sysSetuid (k : Kernel) (curproc : Fin NPROC) (uid : Int) : Int × Kernel :=
  if k.uid curproc ≠ 0 then (-1, k)
  else (0, k.setCreds curproc uid (k.ptable.proc curproc).gid)

def sysLogin (k : Kernel) (curproc : Fin NPROC) (username password : List UInt8) : Int × Kernel :=
  let uid := usersCheckpassword k.accounts username password
  if uid < 0 then (-1, k) else (0, k.setCreds curproc uid uid)

def sysAddsudoer (k : Kernel) (curproc : Fin NPROC) (uid : Int) : Int × Kernel :=
  if k.uid curproc ≠ 0 then (-1, k)
  else
    let (result, accounts) := usersAddSudoer k.accounts uid
    (result, { k with accounts := accounts })

def sysRemovesudoer (k : Kernel) (curproc : Fin NPROC) (uid : Int) : Int × Kernel :=
  if k.uid curproc ≠ 0 then (-1, k)
  else
    let (result, accounts) := usersRemoveSudoer k.accounts uid
    (result, { k with accounts := accounts })

def sysSetsuid (k : Kernel) (curproc : Fin NPROC) (uid : Int) : Int × Kernel :=
  if usersCanSudo k.accounts (k.uid curproc) = 0 then (-1, k)
  else if uid ≠ 0 ∧ uid ≠ k.uid curproc then (-1, k)
  else (0, k.setCreds curproc uid (k.ptable.proc curproc).gid)

/-- The system calls. `other` stands for exec and for the calls of the table that
neither write a process slot's credentials nor the account table: exec, pipe,
read, fstat, chdir, dup, getpid, sbrk, sleep, uptime, open, write, mknod, unlink,
link, mkdir, close, getuid, getgid, whoami, chmod, chown and cansudo. -/
inductive Call where
  | fork (kalloc copyuvm : Bool)
  | exit
  | wait
  | kill (pid : Int)
  | setuid (uid : Int)
  | login (username password : List UInt8)
  | addsudoer (uid : Int)
  | removesudoer (uid : Int)
  | setsuid (uid : Int)
  | other

/-- A process enters the kernel, or the scheduler moves one between RUNNABLE and RUNNING. -/
inductive Event where
  | syscall (curproc : Fin NPROC) (call : Call)
  | schedule (p : Fin NPROC)
  | yield (p : Fin NPROC)

def syscall (k : Kernel) (curproc : Fin NPROC) : Call → Option Kernel
  | .fork kalloc copyuvm => some { k with ptable := (fork k.ptable curproc kalloc copyuvm).2 }
  | .exit => (exit k.ptable curproc).map fun t => { k with ptable := t }
  | .wait => some { k with ptable := (wait k.ptable curproc).2 }
  | .kill pid => some { k with ptable := (kill k.ptable pid).2 }
  | .setuid uid => some (sysSetuid k curproc uid).2
  | .login username password => some (sysLogin k curproc username password).2
  | .addsudoer uid => some (sysAddsudoer k curproc uid).2
  | .removesudoer uid => some (sysRemovesudoer k curproc uid).2
  | .setsuid uid => some (sysSetsuid k curproc uid).2
  | .other => some k

/-- Only a RUNNING process makes calls. -/
def step (k : Kernel) : Event → Option Kernel
  | .syscall curproc call =>
    if (k.ptable.proc curproc).state = .running then syscall k curproc call else none
  | .schedule p =>
    if (k.ptable.proc p).state = .runnable then
      some { k with ptable := k.ptable.modify p fun proc => { proc with state := .running } }
    else none
  | .yield p =>
    if (k.ptable.proc p).state = .running then
      some { k with ptable := k.ptable.modify p fun proc => { proc with state := .runnable } }
    else none

/-- Slot `q'` after the event holds the process that slot `q` held before it, or
the child that process forked in the event. A slot that is UNUSED on either side
of the event does not hold the same process. -/
def Descends (k : Kernel) (event : Event) (k' : Kernel) (q q' : Fin NPROC) : Prop :=
  (q' = q ∧ k.Live q ∧ k'.Live q) ∨
    ((∃ kalloc copyuvm, event = .syscall q (.fork kalloc copyuvm)) ∧ ¬ k.Live q' ∧ k'.Live q')

/-- Slot `q'` at the end of the run holds the process of `q` or a descendant of it. -/
def Lineage : Kernel → List Event → Fin NPROC → Fin NPROC → Prop
  | _, [], q, q' => q' = q
  | k, event :: rest, q, q' =>
    ∃ next middle, step k event = some next ∧ Descends k event next q middle ∧
      Lineage next rest middle q'

/-- No active account with a nonzero uid is in sudoers. -/
def NoSudoers (t : Accounts) : Prop :=
  ∀ i, (t.users i).active = true → (t.users i).uid ≠ 0 → t.sudoers i = 0

instance (t : Accounts) : Decidable (NoSudoers t) :=
  inferInstanceAs (Decidable
    (∀ i, (t.users i).active = true → (t.users i).uid ≠ 0 → t.sudoers i = 0))

/-- The event is no `addsudoer` of a uid-0 process and no login to a uid-0 account. -/
def Quiet (k : Kernel) : Event → Prop
  | .syscall curproc (.addsudoer _) => k.uid curproc ≠ 0
  | .syscall _ (.login username password) => usersCheckpassword k.accounts username password ≠ 0
  | _ => True

theorem setCreds_uid (k : Kernel) (p : Fin NPROC) (uid gid : Int) (q : Fin NPROC) :
    (k.setCreds p uid gid).uid q = if q = p then uid else k.uid q := by
  grind [Kernel.uid, Kernel.setCreds, modify_proc_self, modify_proc_of_ne]

/-- What an event can do to the account table: nothing but clear flags. -/
theorem step_accounts {k k' : Kernel} {event : Event} (quiet : Quiet k event)
    (taken : step k event = some k') : k'.accounts.users = k.accounts.users ∧
      ∀ i, k.accounts.sudoers i = 0 → k'.accounts.sudoers i = 0 := by
  have same : k'.accounts = k.accounts → k'.accounts.users = k.accounts.users ∧
      ∀ i, k.accounts.sudoers i = 0 → k'.accounts.sudoers i = 0 := by
    grind
  cases event with
  | schedule p | yield p =>
    simp only [step, Option.ite_none_right_eq_some, Option.some.injEq] at taken
    exact same (taken.2 ▸ rfl)
  | syscall curproc call =>
    simp only [step, Option.ite_none_right_eq_some] at taken
    obtain ⟨-, entered⟩ := taken
    cases call with
    | fork kalloc copyuvm | wait | kill pid | other =>
      cases entered
      exact same rfl
    | exit =>
      obtain ⟨t, -, rfl⟩ := Option.map_eq_some_iff.mp entered
      exact same rfl
    | setuid uid =>
      cases entered
      unfold sysSetuid
      split <;> exact ⟨rfl, fun _ clear => clear⟩
    | login username password =>
      cases entered
      unfold sysLogin
      dsimp only
      split <;> exact ⟨rfl, fun _ clear => clear⟩
    | setsuid uid =>
      cases entered
      unfold sysSetsuid
      split
      · exact ⟨rfl, fun _ clear => clear⟩
      · split <;> exact ⟨rfl, fun _ clear => clear⟩
    | addsudoer uid =>
      -- Quiet runs have no successful grant: the caller is not root.
      cases entered
      have refused : k.uid curproc ≠ 0 := quiet
      grind [sysAddsudoer, not_false_eq_true]
    | removesudoer uid =>
      cases entered
      grind [sysRemovesudoer, usersRemoveSudoer_users, usersRemoveSudoer_sudoers]

theorem NoSudoers.step {k k' : Kernel} {event : Event} (none : NoSudoers k.accounts)
    (quiet : Quiet k event) (taken : step k event = some k') : NoSudoers k'.accounts := by
  obtain ⟨users, flags⟩ := step_accounts quiet taken
  intro i active nonzero
  rw [users] at active nonzero
  exact flags i (none i active nonzero)

/-- `setsuid` is refused to everyone but root when only root's accounts are flagged. -/
theorem usersCanSudo_eq_zero {t : Accounts} (none : NoSudoers t) {uid : Int} (nonzero : uid ≠ 0) :
    usersCanSudo t uid = 0 := by
  unfold usersCanSudo
  split
  · rename_i i found
    obtain ⟨active, owner⟩ := findUid_some found
    exact none i active (by rw [owner]; exact nonzero)
  · rfl

/-- No quiet call turns a nonzero uid into root's, in the caller's slot or another. -/
theorem syscall_uid {k k' : Kernel} {curproc : Fin NPROC} {call : Call}
    (none : NoSudoers k.accounts) (quiet : Quiet k (.syscall curproc call))
    (running : k.Live curproc) (entered : syscall k curproc call = some k')
    (live : k.Live q) (nonzero : k.uid q ≠ 0) : k'.uid q ≠ 0 := by
  cases call with
  | fork kalloc copyuvm =>
    cases entered
    have kept := (fork_spec k.ptable curproc kalloc copyuvm running).1 q live
    unfold Kernel.uid at nonzero ⊢
    rwa [kept]
  | exit =>
    obtain ⟨t, exited, rfl⟩ := Option.map_eq_some_iff.mp entered
    unfold Kernel.uid at nonzero ⊢
    rwa [exit_uid exited]
  | wait =>
    cases entered
    unfold Kernel.uid at nonzero ⊢
    rwa [wait_uid]
  | kill pid =>
    cases entered
    unfold Kernel.uid at nonzero ⊢
    rwa [kill_uid]
  | setuid uid =>
    cases entered
    grind [sysSetuid, setCreds_uid]
  | login username password =>
    cases entered
    unfold sysLogin
    dsimp only
    split
    · exact nonzero
    · rw [setCreds_uid]
      split
      · exact quiet
      · exact nonzero
  | setsuid uid =>
    cases entered
    unfold sysSetsuid
    split
    · exact nonzero
    · rename_i allowed
      have other : q ≠ curproc := by
        rintro rfl
        exact allowed (usersCanSudo_eq_zero none nonzero)
      grind [setCreds_uid]
  | addsudoer uid =>
    cases entered
    unfold sysAddsudoer
    split <;> exact nonzero
  | removesudoer uid =>
    cases entered
    unfold sysRemovesudoer
    split <;> exact nonzero
  | other =>
    cases entered
    exact nonzero

theorem step_uid {k k' : Kernel} {event : Event}
    (none : NoSudoers k.accounts) (quiet : Quiet k event) (taken : step k event = some k')
    (live : k.Live q) (nonzero : k.uid q ≠ 0) (descends : Descends k event k' q q') :
    k'.Live q' ∧ k'.uid q' ≠ 0 := by
  rcases descends with ⟨rfl, -, after⟩ | ⟨⟨kalloc, copyuvm, rfl⟩, fresh, after⟩
  · refine ⟨after, ?_⟩
    cases event with
    | schedule p | yield p =>
      simp only [step, Option.ite_none_right_eq_some, Option.some.injEq] at taken
      grind [Kernel.uid, modify_uid]
    | syscall curproc call =>
      simp only [step, Option.ite_none_right_eq_some] at taken
      have running : k.Live curproc := by grind [Kernel.Live]
      exact syscall_uid none quiet running taken.2 live nonzero
  · refine ⟨after, ?_⟩
    simp only [step, Option.ite_none_right_eq_some] at taken
    obtain ⟨-, entered⟩ := taken
    cases entered
    -- The child slot was UNUSED, so its uid is the one fork copied from the parent.
    have inherited := (fork_spec k.ptable q kalloc copyuvm live).2 q'
      (not_not.mp fresh) after
    unfold Kernel.uid at nonzero ⊢
    rwa [inherited]

/-- The taint of a nonzero uid follows a process and everything it forks. -/
theorem lineage_uid {k final : Kernel} {events : List Event}
    (none : NoSudoers k.accounts) (quiet : Meets step Quiet k events)
    (reached : run step k events = some final) (live : k.Live q) (nonzero : k.uid q ≠ 0)
    (lineage : Lineage k events q q') : final.uid q' ≠ 0 := by
  induction events generalizing k q with
  | nil =>
    cases reached
    cases lineage
    exact nonzero
  | cons event rest ih =>
    obtain ⟨next, middle, taken, descends, remaining⟩ := lineage
    obtain ⟨next', taken', tail⟩ := run_cons_some.mp reached
    rw [taken] at taken'
    cases taken'
    obtain ⟨live', nonzero'⟩ := step_uid none quiet.1 taken live nonzero descends
    exact ih (none.step quiet.1 taken) (quiet.2 next taken) tail live' nonzero' remaining

theorem run_sudoers {k final : Kernel} {events : List Event}
    (quiet : Meets step Quiet k events) (reached : run step k events = some final)
    (i : Fin NUSER) (clear : k.accounts.sudoers i = 0) : final.accounts.sudoers i = 0 :=
  run_preserves (fun _ _ _ ok flag taken => (step_accounts ok taken).2 i flag) quiet reached clear

/-- A run without a grant by root and without a login to a uid-0 account, from a
state in which no other account is in sudoers, never gives uid 0 to a process
that had another uid, nor to anything it forks, and sets no sudoers flag. -/
theorem no_privilege_escalation (k k₁ k₂ : Kernel) (before after : List Event)
    (none : NoSudoers k.accounts) (quiet : Meets step Quiet k (before ++ after))
    (reached : run step k before = some k₁) (continued : run step k₁ after = some k₂) :
    (∀ q q', k₁.Live q → k₁.uid q ≠ 0 → Lineage k₁ after q q' → k₂.uid q' ≠ 0) ∧
      ∀ i, k₁.accounts.sudoers i = 0 → k₂.accounts.sudoers i = 0 := by
  have none₁ : NoSudoers k₁.accounts :=
    run_preserves (fun state _ _ ok (clean : NoSudoers state.accounts) taken =>
      clean.step ok taken) quiet.first reached none
  have quiet₁ := quiet.append reached
  exact ⟨fun q q' live nonzero lineage => lineage_uid none₁ quiet₁ continued live nonzero lineage,
    fun i clear => run_sudoers quiet₁ continued i clear⟩

/-- init in slot 0 and a shell of uid 1000 in slot 1, after root took 1000 off sudoers. -/
def userShell : Kernel where
  ptable :=
    { proc := fun i =>
        if i = 0 then ⟨.running, 1, none, none, false, 0, 0⟩
        else if i = 1 then ⟨.running, 2, some 0, none, false, 1000, 1000⟩
        else ⟨.unused, 0, none, none, false, 0, 0⟩
      nextpid := 3
      initproc := 0 }
  accounts := (usersRemoveSudoer usersInit 1000).2

theorem no_privilege_escalation_userShell :
    ∃ k₂, run step userShell [.syscall 1 (.fork true true), .syscall 1 (.setsuid 0)] = some k₂ ∧
      k₂.uid 2 ≠ 0 := by
  refine ⟨_, rfl, ?_⟩
  refine (no_privilege_escalation userShell userShell _ []
    [.syscall 1 (.fork true true), .syscall 1 (.setsuid 0)] (by decide)
    ⟨trivial, fun _ _ => ⟨trivial, fun _ _ => trivial⟩⟩ rfl rfl).1 1 2 (by decide) (by decide) ?_
  exact ⟨_, 2, rfl, Or.inr ⟨⟨true, true, rfl⟩, by decide, by decide⟩,
    _, 2, rfl, Or.inl ⟨rfl, by decide, by decide⟩, rfl⟩

end Xv6.Credentials
