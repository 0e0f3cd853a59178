import Xv6.Lib.Runs
import Xv6.Users

/- Who may use sudo, after any sequence of account and sudoers calls. -/
namespace Xv6.Users

open Runs

variable {t : Accounts} {i : Fin NUSER} {uid : Int}

inductive Call where
  | add (username password : List UInt8) (uid gid : Int)
  | delete (username : List UInt8)
  | addSudoer (uid : Int)
  | removeSudoer (uid : Int)

def perform (t : Accounts) : Call → Int × Accounts
  | .add username password uid gid => usersAdd t username password uid gid
  | .delete username => usersDelete t username
  | .addSudoer uid => usersAddSudoer t uid
  | .removeSudoer uid => usersRemoveSudoer t uid

/-- The account in slot `i` exists and has this uid. -/
def Holds (t : Accounts) (i : Fin NUSER) (uid : Int) : Prop :=
  (t.users i).active = true ∧ (t.users i).uid = uid

instance (t : Accounts) (i : Fin NUSER) (uid : Int) : Decidable (Holds t i uid) :=
  inferInstanceAs (Decidable (_ ∧ _))

/-- The rights a call is meant to give and take, account by account: a new account
has none, a grant is for every account of the uid that exists when it is made, and a
revocation (which is refused for uid 0) ends it. -/
def entitle (t : Accounts) (entitled : Fin NUSER → Bool) : Call → Fin NUSER → Bool
  | .add _ _ _ _, i => if findFree t = some i then false else entitled i
  | .delete _, i => entitled i
  | .addSudoer uid, i => if Holds t i uid then true else entitled i
  | .removeSudoer uid, i => if uid ≠ 0 ∧ Holds t i uid then false else entitled i

/-- The tables of users.c, and beside them the accounts that were granted sudo after they
were created and not revoked since. -/
structure Ledger where
  accounts : Accounts
  entitled : Fin NUSER → Bool

/-- After `users_init`, which makes the two accounts it adds sudoers. -/
def Ledger.start : Ledger := ⟨usersInit, fun i => decide (i = 0 ∨ i = 1)⟩

def record (l : Ledger) (call : Call) : Option Ledger :=
  some ⟨(perform l.accounts call).2, entitle l.accounts l.entitled call⟩

/-- Whoever may use sudo has an account that is entitled to it. -/
def Ledger.Rightful (l : Ledger) : Prop :=
  ∀ uid, usersCanSudo l.accounts uid ≠ 0 → ∃ i, Holds l.accounts i uid ∧ l.entitled i = true

/-- A new account takes no slot whose flag is still set, and a revocation leaves no other
account of its uid flagged. -/
def Clean (l : Ledger) : Call → Prop
  | .add _ _ _ _ => ∀ i, findFree l.accounts = some i → l.accounts.sudoers i = 0
  | .removeSudoer uid =>
    uid ≠ 0 → ∀ i, Holds l.accounts i uid → findUid l.accounts uid ≠ some i →
      l.accounts.sudoers i = 0
  | _ => True

instance (l : Ledger) (call : Call) : Decidable (Clean l call) := by
  cases call <;> unfold Clean <;> infer_instance

theorem usersDelete_sudoers (t : Accounts) (username : List UInt8) :
    (usersDelete t username).2.sudoers = t.sudoers := by
  grind [usersDelete]

theorem usersDelete_holds {username : List UInt8}
    (holds : Holds (usersDelete t username).2 i uid) : Holds t i uid := by
  unfold usersDelete at holds
  split at holds
  · rename_i slot _
    split at holds
    · exact holds
    · grind [Holds, Function.update_of_ne]
  · exact holds

theorem usersAdd_sudoers (t : Accounts) (username password : List UInt8) (uid gid : Int) :
    (usersAdd t username password uid gid).2.sudoers = t.sudoers := by
  unfold usersAdd
  split <;> rfl

/-- An account that `users_add` did not make was there before. -/
theorem usersAdd_holds {username password : List UInt8} {gid owner : Int}
    (other : findFree t ≠ some i)
    (holds : Holds (usersAdd t username password uid gid).2 i owner) : Holds t i owner := by
  unfold usersAdd at holds
  split at holds
  · rename_i slot found
    have apart : i ≠ slot := fun same => other (by rw [found, same])
    simpa [Holds, Function.update_of_ne apart] using holds
  · exact holds

theorem usersAddSudoer_holds {owner : Int}
    (holds : Holds (usersAddSudoer t uid).2 i owner) : Holds t i owner := by
  unfold usersAddSudoer at holds
  split at holds <;> exact holds

theorem usersAddSudoer_sudoers
    (other : ¬ Holds t i uid) : (usersAddSudoer t uid).2.sudoers i = t.sudoers i := by
  unfold usersAddSudoer
  split
  · rename_i slot found
    have apart : i ≠ slot := by
      intro same
      rw [same] at other
      exact other (findUid_some found)
    exact Function.update_of_ne apart _ _
  · rfl

/-- Every flagged account is entitled to sudo. Flags of empty slots say nothing. -/
def Ledger.Backed (l : Ledger) : Prop :=
  ∀ i uid, Holds l.accounts i uid → l.accounts.sudoers i ≠ 0 → l.entitled i = true

theorem Ledger.Backed.rightful {l : Ledger} (backed : l.Backed) : l.Rightful := by
  intro uid allowed
  unfold usersCanSudo at allowed
  split at allowed
  · rename_i i found
    have holds : Holds l.accounts i uid := findUid_some found
    exact ⟨i, holds, backed i uid holds allowed⟩
  · exact (allowed rfl).elim

theorem Ledger.backed_start : Ledger.start.Backed := by
  intro i uid _ flagged
  simp only [Ledger.start, usersInit, sudoersInit] at flagged ⊢
  grind

theorem Ledger.Backed.record {l next : Ledger} {call : Call} (backed : l.Backed)
    (clean : Clean l call) (taken : record l call = some next) : next.Backed := by
  cases taken
  intro i owner holds flagged
  cases call with
  | add username password uid gid =>
    simp only [perform, usersAdd_sudoers] at holds flagged
    have other : findFree l.accounts ≠ some i := fun taken => flagged (clean i taken)
    simp only [entitle, other, ↓reduceIte]
    exact backed i owner (usersAdd_holds other holds) flagged
  | delete username =>
    simp only [perform, usersDelete_sudoers] at holds flagged
    exact backed i owner (usersDelete_holds holds) flagged
  | addSudoer uid =>
    have before := usersAddSudoer_holds holds
    simp only [entitle]
    split
    · rfl
    · rename_i other
      simp only [perform, usersAddSudoer_sudoers other] at flagged
      exact backed i owner before flagged
  | removeSudoer uid =>
    have before : Holds l.accounts i owner := by
      simpa only [Holds, perform, usersRemoveSudoer_users] using holds
    have kept : l.accounts.sudoers i ≠ 0 :=
      fun clear => flagged (usersRemoveSudoer_sudoers l.accounts uid i clear)
    simp only [entitle]
    split
    · rename_i revoked
      -- The first account of the uid was cleared, the others were clear already.
      by_cases first : findUid l.accounts uid = some i
      · simp [perform, usersRemoveSudoer, revoked.1, first, setSudoer] at flagged
      · exact (kept (clean revoked.1 i revoked.2 first)).elim
    · exact backed i owner before kept

/-- In a run of account and sudoers calls in which no account is created over a leftover
flag and no revocation leaves another account of the uid flagged, whoever may use sudo
has an account that was granted it after its creation and not revoked since. -/
theorem sudo_follows_account (calls : List Call) (final : Ledger)
    (clean : Meets record Clean Ledger.start calls)
    (reached : run record Ledger.start calls = some final) : final.Rightful :=
  (run_preserves (fun _ _ _ ok backed taken => Ledger.Backed.record backed ok taken) clean reached
    Ledger.backed_start).rightful

/-- An account is deleted and another takes its slot. -/
def reuse : List Call :=
  [.delete (bytes "user"), .add (bytes "eve") (bytes "eve") 1001 1001]

/-- The account is revoked first, so its slot can be given to another. -/
theorem sudo_follows_account_revoked : ∃ final,
    run record Ledger.start (.removeSudoer 1000 :: reuse) = some final ∧ final.Rightful :=
  ⟨_, rfl, sudo_follows_account (.removeSudoer 1000 :: reuse) _ (by decide +kernel) rfl⟩

/-- Without that the new account has the old one's rights. -/
theorem deleted_sudoer_inherited : ¬ ∀ (calls : List Call) (final : Ledger),
      run record Ledger.start calls = some final → final.Rightful := by
  intro always
  obtain ⟨i, holds, entitled⟩ := always reuse _ rfl 1001 (by decide +kernel)
  revert i
  decide +kernel

end Xv6.Users
