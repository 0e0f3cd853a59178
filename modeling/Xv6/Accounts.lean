import Xv6.Sudo

/- The account table over all calls that change it: root's account stays as it was made, and
names and uids identify accounts as long as each new account has its own. -/
namespace Xv6.Users

open CString (strncmp safestrcpy fieldString)
open Runs

variable {next : Accounts} {call : Call}

def afterCall (t : Accounts) (call : Call) : Option Accounts := some (perform t call).2

section Changes

def setUser (t : Accounts) (i : Fin NUSER) (user : User) : Accounts :=
  { t with users := Function.update t.users i user }

theorem setUser_other {t : Accounts} {i slot : Fin NUSER} (apart : i ≠ slot) (user : User) :
    (setUser t slot user).users i = t.users i := Function.update_of_ne apart _ _

/-- The tables a call leaves, by what it does to the slots. -/
inductive Change (t : Accounts) : Call → Accounts → Prop where
  | none (call : Call) : Change t call t
  | added (username password : List UInt8) (uid gid : Int) (i : Fin NUSER)
      (free : findFree t = some i) :
      Change t (.add username password uid gid)
        (setUser t i ⟨uid, gid, safestrcpy username 16, safestrcpy password 32, true⟩)
  | deleted (username : List UInt8) (i : Fin NUSER) (found : findName t username = some i)
      (other : (t.users i).uid ≠ 0) :
      Change t (.delete username) (setUser t i { t.users i with active := false })
  | granted (uid : Int) (i : Fin NUSER) (found : findUid t uid = some i) :
      Change t (.addSudoer uid) (setSudoer t i 1)
  | revoked (uid : Int) (i : Fin NUSER) (found : findUid t uid = some i) (other : uid ≠ 0) :
      Change t (.removeSudoer uid) (setSudoer t i 0)

theorem perform_change (t : Accounts) (call : Call) : Change t call (perform t call).2 := by
  cases call with
  | add username password uid gid =>
    simp only [perform, usersAdd]
    split
    · rename_i i free
      exact .added username password uid gid i free
    · exact .none _
  | delete username =>
    simp only [perform, usersDelete]
    split
    · rename_i i found
      split
      · exact .none _
      · rename_i other
        exact .deleted username i found other
    · exact .none _
  | addSudoer uid =>
    simp only [perform, usersAddSudoer]
    split
    · rename_i i found
      exact .granted uid i found
    · exact .none _
  | removeSudoer uid =>
    simp only [perform, usersRemoveSudoer]
    split
    · exact .none _
    · rename_i other
      split
      · rename_i i found
        exact .revoked uid i found other
      · exact .none _

/-- An account after a call was there before it, or is the one the call added. -/
theorem Change.account {t : Accounts} (change : Change t call next) {i : Fin NUSER}
    (active : (next.users i).active = true) :
    (next.users i = t.users i ∧ (t.users i).active = true) ∨
      ∃ username password uid gid, call = .add username password uid gid ∧ findFree t = some i ∧
        next.users i = ⟨uid, gid, safestrcpy username 16, safestrcpy password 32, true⟩ := by
  cases change with
  | none => exact .inl ⟨rfl, active⟩
  | added username password uid gid slot free =>
    by_cases same : i = slot
    · rw [same]
      exact .inr ⟨username, password, uid, gid, rfl, free, Function.update_self _ _ _⟩
    · grind [setUser_other]
  | deleted username slot found other =>
    by_cases same : i = slot
    · simp [setUser, same] at active
    · grind [setUser_other]
  | granted => exact .inl ⟨rfl, active⟩
  | revoked => exact .inl ⟨rfl, active⟩

end Changes

section Root

variable {t : Accounts}

/-- Slot 0 is root's, as `users_init` filled it. -/
structure Rooted (t : Accounts) : Prop where
  user : t.users 0 = usersInit.users 0
  sudoer : t.sudoers 0 = 1

theorem rooted_init : Rooted usersInit := ⟨rfl, rfl⟩

theorem Rooted.active (rooted : Rooted t) : (t.users 0).active = true := by
  rw [rooted.user]
  rfl

theorem Rooted.uid (rooted : Rooted t) : (t.users 0).uid = 0 := by
  rw [rooted.user]
  rfl

/-- Slot 0 is not free, its uid is 0, and a call that finds it by its name or by another uid
does not get to change it. -/
theorem Rooted.change (rooted : Rooted t) (change : Change t call next) : Rooted next := by
  cases change with
  | none => exact rooted
  | added username password uid gid i free =>
    have apart : 0 ≠ i := by
      intro same
      have inactive := findFree_some free
      grind [active]
    refine ⟨?_, rooted.sudoer⟩
    rw [setUser_other apart, rooted.user]
  | deleted username i found other =>
    have apart : 0 ≠ i := by grind [uid]
    refine ⟨?_, rooted.sudoer⟩
    rw [setUser_other apart, rooted.user]
  | granted uid i found =>
    refine ⟨rooted.user, ?_⟩
    by_cases same : 0 = i
    · simp only [setSudoer, same, Function.update_self]
    · simp only [setSudoer, Function.update_of_ne same, rooted.sudoer]
  | revoked uid i found other =>
    have apart : 0 ≠ i := by
      intro same
      have holds := (findUid_some found).2
      grind [uid]
    refine ⟨rooted.user, ?_⟩
    simp only [setSudoer, Function.update_of_ne apart, rooted.sudoer]

theorem Rooted.findUid (rooted : Rooted t) : findUid t 0 = some 0 := by
  apply firstSlot_zero
  simp only [rooted.active, rooted.uid, BEq.rfl, Bool.and_self]

theorem Rooted.findName (rooted : Rooted t) : findName t (bytes "root") = some 0 := by
  apply firstSlot_zero
  rw [rooted.user]
  decide +kernel

/-- After any calls root can log in with its password, may use sudo and has its name. -/
theorem root_never_locked_out (calls : List Call) (final : Accounts)
    (reached : run afterCall usersInit calls = some final) (size : Nat) (large : 4 < size) :
    usersCheckpassword final (bytes "root") (bytes "toor") = 0 ∧ usersCanSudo final 0 = 1 ∧
      usersGetname final 0 size = bytes "root" := by
  have rooted : Rooted final := by
    have step : ∀ t call next, True → Rooted t → afterCall t call = some next → Rooted next := by
      intro t call next _ here taken
      cases taken
      exact here.change (perform_change t call)
    exact run_keeps step (fun _ _ => trivial) reached rooted_init
  refine ⟨?_, ?_, ?_⟩
  · have accepted : strncmp (usersInit.users 0).password (bytes "toor") 32 = 0 := by decide +kernel
    simp only [usersCheckpassword, rooted.findName, rooted.user, accepted, ↓reduceIte]
    rfl
  · simp only [usersCanSudo, rooted.findUid, rooted.sudoer]
  · have name : (usersInit.users 0).username = bytes "root" := by decide +kernel
    have length : (bytes "root").length = 4 := by decide +kernel
    simp only [usersGetname, rooted.findUid, rooted.user, name]
    exact CString.safestrcpy_fits _ _ (by decide +kernel) (by omega)

/-- A second account of root's name and uid, and the name deleted. -/
def namesake : List Call :=
  [.add (bytes "root") (bytes "other") 0 0, .delete (bytes "root"), .removeSudoer 0]

theorem root_never_locked_out_namesake : ∃ final, run afterCall usersInit namesake = some final ∧
    usersCheckpassword final (bytes "root") (bytes "toor") = 0 ∧ usersCanSudo final 0 = 1 ∧
      usersGetname final 0 5 = bytes "root" :=
  ⟨_, rfl, root_never_locked_out namesake _ rfl 5 (by decide)⟩

end Root

section Identity

variable {name : List UInt8} {t : Accounts}

/-- No two accounts have the same username or the same uid. -/
def Distinct (t : Accounts) : Prop :=
  ∀ i j, (t.users i).active = true → (t.users j).active = true → i ≠ j →
    (t.users i).username ≠ (t.users j).username ∧ (t.users i).uid ≠ (t.users j).uid

instance (t : Accounts) : Decidable (Distinct t) := by
  unfold Distinct
  infer_instance

/-- The call makes an account that `name` finds. -/
def Call.Adds (name : List UInt8) : Call → Prop
  | .add username _ _ _ => strncmp (safestrcpy username 16) name 16 = 0
  | _ => False

/-- In all states of the run accounts are told apart by username and by uid, and a deleted name
does not log in until it is added again. -/
structure AccountIdentity (calls : List Call) : Prop where
  distinct : ∀ before after t, calls = before ++ after → run afterCall usersInit before = some t →
    Distinct t
  deleted : ∀ before name between after s t, calls = before ++ .delete name :: (between ++ after) →
    run afterCall usersInit before = some s → (usersDelete s name).1 = 0 →
    (∀ call ∈ between, ¬ call.Adds name) → run afterCall (usersDelete s name).2 between = some t →
    ∀ password, usersCheckpassword t name password = -1

/-- A new account, if there is room for it, has a name and a uid that no account has. -/
def Fresh (t : Accounts) : Call → Prop
  | .add username _ uid _ => findFree t ≠ none → ∀ i, (t.users i).active = true →
      (t.users i).username ≠ safestrcpy username 16 ∧ (t.users i).uid ≠ uid
  | _ => True

instance (t : Accounts) : (call : Call) → Decidable (Fresh t call)
  | .add _ _ _ _ => inferInstanceAs (Decidable (_ → ∀ _, _ → _ ∧ _))
  | .delete _ => inferInstanceAs (Decidable True)
  | .addSudoer _ => inferInstanceAs (Decidable True)
  | .removeSudoer _ => inferInstanceAs (Decidable True)

/-- Every name was stored by `safestrcpy`. -/
def Stored (t : Accounts) : Prop :=
  ∀ i, (t.users i).active = true → fieldString 16 (t.users i).username = (t.users i).username

/-- No account is found by the name. -/
def Absent (name : List UInt8) (t : Accounts) : Prop :=
  ∀ i, (t.users i).active = true → strncmp (t.users i).username name 16 ≠ 0

theorem Absent.checkpassword (absent : Absent name t)
    (password : List UInt8) : usersCheckpassword t name password = -1 := by
  have missing : findName t name = none := by
    apply firstSlot_none.mpr
    intro i
    by_cases active : (t.users i).active = true
    · simp only [active, absent i active, Bool.true_and, beq_eq_false_iff_ne, ne_eq,
        not_false_eq_true]
    · simp only [active, Bool.false_and]
  simp only [usersCheckpassword, missing]

theorem Absent.change (absent : Absent name t)
    (other : ¬ call.Adds name) (change : Change t call next) : Absent name next := by
  intro i active
  rcases change.account active with ⟨kept, before⟩ | ⟨username, password, uid, gid, rfl, free, made⟩
  · rw [kept]
    exact absent i before
  · rw [made]
    exact other

theorem stored_init : Stored usersInit := by
  unfold Stored
  decide +kernel

theorem Stored.change (stored : Stored t) (change : Change t call next) : Stored next := by
  intro i active
  rcases change.account active with ⟨kept, before⟩ | ⟨username, password, uid, gid, rfl, free, made⟩
  · rw [kept]
    exact stored i before
  · rw [made]
    exact CString.fieldString_safestrcpy 16 username

/-- A deletion that returns 0 empties the first slot of the name, and no other has it. -/
theorem Distinct.deleted (distinct : Distinct t) (stored : Stored t)
    (returned : (usersDelete t name).1 = 0) : Absent name (usersDelete t name).2 := by
  unfold usersDelete at returned ⊢
  split
  · rename_i slot found
    obtain ⟨here, named⟩ := findName_some found
    simp only [found] at returned
    split
    · rename_i root
      simp [root] at returned
    · intro i active equal
      by_cases same : i = slot
      · simp [same] at active
      · simp only [Function.update_of_ne same] at active equal
        rw [CString.strncmp_eq_zero] at named equal
        apply (distinct i slot active here same).1
        rw [← stored i active, ← stored slot here, equal, named]
  · rename_i missing
    simp [missing] at returned

/-- A call leaves the accounts distinct exactly if the account it adds is new. -/
theorem Distinct.perform_iff (distinct : Distinct t) (call : Call) :
    Distinct (perform t call).2 ↔ Fresh t call := by
  constructor
  · intro after
    cases call with
    | add username password uid gid =>
      intro room i active
      obtain ⟨slot, free⟩ := Option.ne_none_iff_exists'.mp room
      have apart : i ≠ slot := by grind [findFree_some]
      have there := after i slot
      simp only [perform, usersAdd, free, Function.update_self,
        Function.update_of_ne apart] at there
      exact there active trivial apart
    | delete username => trivial
    | addSudoer uid => trivial
    | removeSudoer uid => trivial
  · intro fresh i j activeI activeJ apart
    have change := perform_change t call
    rcases change.account activeI with ⟨keptI, beforeI⟩ | ⟨u, p, uid, gid, rfl, freeI, madeI⟩
    · rcases change.account activeJ with ⟨keptJ, beforeJ⟩ | ⟨u, p, uid, gid, rfl, freeJ, madeJ⟩
      · rw [keptI, keptJ]
        exact distinct i j beforeI beforeJ apart
      · rw [keptI, madeJ]
        exact fresh (by simp [freeJ]) i beforeI
    · rcases change.account activeJ with ⟨keptJ, beforeJ⟩ | ⟨u', p', uid', gid', same, freeJ, madeJ⟩
      · rw [madeI, keptJ]
        have other := fresh (by simp [freeI]) j beforeJ
        exact ⟨other.1.symm, other.2.symm⟩
      · grind

theorem run_afterCall (t : Accounts) (calls : List Call) :
    ∃ final, run afterCall t calls = some final := by
  induction calls generalizing t with
  | nil => exact ⟨t, rfl⟩
  | cons call rest ih => exact ih _

/-- Usernames and uids identify accounts, and deleted names stay deleted, in exactly the runs in
which every account that is added has a name and a uid of its own. `users_add` does not check. -/
theorem account_identity_iff_fresh (calls : List Call) :
    AccountIdentity calls ↔ Meets afterCall Fresh usersInit calls := by
  have kept : ∀ t call next, Stored t → afterCall t call = some next → Stored next := by
    intro t call next stored taken
    cases taken
    exact stored.change (perform_change t call)
  have stepIff : ∀ t call next, Stored t → Distinct t → afterCall t call = some next →
      (Distinct next ↔ Fresh t call) := by
    intro t call next _ distinct taken
    cases taken
    exact distinct.perform_iff call
  obtain ⟨final, reached⟩ := run_afterCall usersInit calls
  have distinct_iff := all_iff_meets kept stepIff reached stored_init (by decide +kernel)
  constructor
  · intro identity
    exact distinct_iff.mp identity.distinct
  · intro fresh
    have distinct := distinct_iff.mpr fresh
    refine ⟨distinct, fun before name between after s t split first returned others rest => ?_⟩
    have stored : Stored s := by
      refine run_keeps (fun t call next (_ : True) here taken => kept t call next here taken)
        (fun _ _ => trivial) first stored_init
    have absent := (distinct before _ s split first).deleted stored returned
    apply Absent.checkpassword
    refine run_keeps (fun t call next other here taken => ?_) others rest absent
    cases taken
    exact here.change other (perform_change t call)

theorem account_identity_iff_fresh_reuse : AccountIdentity reuse :=
  (account_identity_iff_fresh reuse).mpr (by decide +kernel)

/-- A second account of an existing name. -/
def twice : List Call := [.add (bytes "user") (bytes "other") 1001 1001]

/-- It is accepted beside the first. -/
theorem account_added_twice : ¬ ∀ calls : List Call, AccountIdentity calls := by
  intro always
  have distinct := (always twice).distinct twice [] _ rfl rfl
  revert distinct
  decide +kernel

end Identity

end Xv6.Users
