import Mathlib.Algebra.GroupWithZero.Nat
import Xv6.CString

/- users.c: the account table and the slot-indexed sudoers array. -/
namespace Xv6.Users

open CString (strncmp safestrcpy)

abbrev NUSER : Nat := 10

instance : NeZero NUSER := ⟨by decide⟩

structure User where
  uid : Int
  gid : Int
  username : List UInt8
  password : List UInt8
  active : Bool

/-- `usertable` and `sudoers`, which are indexed by the same slots. -/
structure Accounts where
  users : Fin NUSER → User
  sudoers : Fin NUSER → Int

def bytes (text : String) : List UInt8 := text.toUTF8.toList

/-- A slot of zeroed memory. -/
def User.zero : User := ⟨0, 0, [], [], false⟩

def sudoersInit : Fin NUSER → Int := fun i => if i = 0 ∨ i = 1 then 1 else 0

def usersInit : Accounts where
  users := fun i =>
    if i = 0 then ⟨0, 0, safestrcpy (bytes "root") 16, safestrcpy (bytes "toor") 32, true⟩
    else if i = 1 then
      ⟨1000, 1000, safestrcpy (bytes "user") 16, safestrcpy (bytes "user") 32, true⟩
    else User.zero
  sudoers := sudoersInit

/-- The loop over the slots, stopping at the first that passes the test. -/
def firstSlot (test : Fin NUSER → Bool) : Option (Fin NUSER) := (List.finRange NUSER).find? test

def findUid (t : Accounts) (uid : Int) : Option (Fin NUSER) :=
  firstSlot fun i => (t.users i).active && (t.users i).uid == uid

def findName (t : Accounts) (username : List UInt8) : Option (Fin NUSER) :=
  firstSlot fun i => (t.users i).active && strncmp (t.users i).username username 16 == 0

def findFree (t : Accounts) : Option (Fin NUSER) := firstSlot fun i => !(t.users i).active

def usersCheckpassword (t : Accounts) (username password : List UInt8) : Int :=
  match findName t username with
  | some i => if strncmp (t.users i).password password 32 = 0 then (t.users i).uid else -1
  | none => -1

/-- What `users_getname` leaves in a buffer of `size` bytes. -/
def usersGetname (t : Accounts) (uid : Int) (size : Nat) : List UInt8 :=
  match findUid t uid with
  | some i => safestrcpy (t.users i).username size
  | none => safestrcpy (bytes "unknown") size

def usersCanSudo (t : Accounts) (uid : Int) : Int :=
  match findUid t uid with
  | some i => t.sudoers i
  | none => 0

def setSudoer (t : Accounts) (i : Fin NUSER) (flag : Int) : Accounts :=
  { t with sudoers := Function.update t.sudoers i flag }

def usersAddSudoer (t : Accounts) (uid : Int) : Int × Accounts :=
  match findUid t uid with
  | some i => (0, setSudoer t i 1)
  | none => (-1, t)

def usersRemoveSudoer (t : Accounts) (uid : Int) : Int × Accounts :=
  if uid = 0 then (-1, t)
  else
    match findUid t uid with
    | some i => (0, setSudoer t i 0)
    | none => (-1, t)

/-- Only an inactive slot is taken; its sudoers flag is not touched. -/
def usersAdd (t : Accounts) (username password : List UInt8) (uid gid : Int) : Int × Accounts :=
  match findFree t with
  | some i =>
    let user := ⟨uid, gid, safestrcpy username 16, safestrcpy password 32, true⟩
    (0, { t with users := Function.update t.users i user })
  | none => (-1, t)

/-- The account of uid 0 is refused, but only if it is the first of that name. -/
def usersDelete (t : Accounts) (username : List UInt8) : Int × Accounts :=
  match findName t username with
  | some i =>
    if (t.users i).uid = 0 then (-1, t)
    else (0, { t with users := Function.update t.users i { t.users i with active := false } })
  | none => (-1, t)

theorem firstSlot_some {test : Fin NUSER → Bool} {i : Fin NUSER}
    (found : firstSlot test = some i) : test i = true :=
  List.find?_some found

/-- The loop stops at slot 0 if that passes. -/
theorem firstSlot_zero {test : Fin NUSER → Bool} (passes : test 0 = true) :
    firstSlot test = some 0 := by
  unfold firstSlot
  rw [List.finRange_succ, List.find?_cons_of_pos passes]

theorem firstSlot_none {test : Fin NUSER → Bool} : firstSlot test = none ↔ ∀ i, test i = false := by
  simp only [firstSlot, List.find?_eq_none, List.mem_finRange, forall_const, Bool.not_eq_true]

theorem findFree_some {t : Accounts} {i : Fin NUSER} (found : findFree t = some i) :
    (t.users i).active = false := by
  have passed := firstSlot_some found
  simpa only [Bool.not_eq_true'] using passed

theorem findName_some {t : Accounts} {username : List UInt8} {i : Fin NUSER}
    (found : findName t username = some i) :
    (t.users i).active = true ∧ strncmp (t.users i).username username 16 = 0 := by
  have passed := firstSlot_some found
  simpa only [Bool.and_eq_true, beq_iff_eq] using passed

theorem findUid_some {t : Accounts} {uid : Int} {i : Fin NUSER}
    (found : findUid t uid = some i) : (t.users i).active = true ∧ (t.users i).uid = uid := by
  have passed := firstSlot_some found
  simpa only [Bool.and_eq_true, beq_iff_eq] using passed

@[simp] theorem usersRemoveSudoer_users (t : Accounts) (uid : Int) :
    (usersRemoveSudoer t uid).2.users = t.users := by
  unfold usersRemoveSudoer
  split
  · rfl
  · split <;> rfl

/-- Revoking never sets a flag. -/
theorem usersRemoveSudoer_sudoers (t : Accounts) (uid : Int) (i : Fin NUSER)
    (clear : t.sudoers i = 0) : (usersRemoveSudoer t uid).2.sudoers i = 0 := by
  unfold usersRemoveSudoer
  split
  · exact clear
  · split
    · rename_i slot _
      by_cases same : i = slot
      · simp [setSudoer, same]
      · simpa [setSudoer, Function.update_of_ne same] using clear
    · exact clear

end Xv6.Users
