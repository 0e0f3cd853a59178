import Mathlib.Data.Fin.Tuple.Basic
import Mathlib.Data.List.TakeWhile
import Xv6.Accounts
import Xv6.Credentials

/- An account that was added can log in, if its name and password fit their fields and no other
account of the name is in the way. -/
namespace Xv6.Credentials

open Runs Users
open CString (deref strncmp safestrcpy fieldString)

section Fields

/-- A string that a field of `n` bytes has room for. -/
structure Field (n : Nat) (s : List UInt8) : Prop where
  text : 0 ∉ s
  short : s.length < n

theorem takeWhile_text {s : List UInt8} (text : 0 ∉ s) : s.takeWhile (· ≠ 0) = s := by
  grind [List.takeWhile_eq_self_iff, decide_eq_true]

theorem fieldString_text {s : List UInt8} (text : 0 ∉ s) (n : Nat) : fieldString n s = s.take n :=
  takeWhile_text fun member => text (List.mem_of_mem_take member)

/-- A string in a field is compared with a whole string. -/
theorem Field.strncmp_eq_zero {n : Nat} {s t : List UInt8} (field : Field n s) (text : 0 ∉ t) :
    strncmp s t n = 0 ↔ s = t := by
  have short := field.short
  rw [CString.strncmp_eq_zero, fieldString_text field.text, fieldString_text text,
    List.take_of_length_le (Nat.le_of_lt short)]
  constructor
  · intro same
    have length := congrArg List.length same
    grind [List.length_take, List.take_of_length_le]
  · rintro rfl
    rw [List.take_of_length_le (Nat.le_of_lt short)]

theorem field_safestrcpy (t : List UInt8) (n : Nat) : Field (n + 1) (safestrcpy t (n + 1)) := by
  induction n generalizing t with
  | zero => exact ⟨List.not_mem_nil, Nat.one_pos⟩
  | succ n ih =>
    rw [safestrcpy]
    split
    · exact ⟨List.not_mem_nil, Nat.succ_pos _⟩
    · rename_i nonzero
      refine ⟨fun member => ?_, ?_⟩
      · rcases List.mem_cons.mp member with zero | rest
        · exact nonzero zero.symm
        · exact (ih t.tail).text rest
      · exact Nat.succ_lt_succ (ih t.tail).short

theorem Field.safestrcpy_eq {n : Nat} {s : List UInt8} (field : Field n s) : safestrcpy s n = s :=
  CString.safestrcpy_fits s n (fun _ member zero => field.text (zero ▸ member)) field.short

/-- The names and passwords of accounts are in their fields. -/
def Fielded (t : Accounts) : Prop :=
  ∀ i, (t.users i).active = true → Field 16 (t.users i).username ∧ Field 32 (t.users i).password

theorem fielded_init : Fielded usersInit := by
  intro i active
  have made : ∀ j, (usersInit.users j).active = true →
      (0 ∉ (usersInit.users j).username ∧ (usersInit.users j).username.length < 16) ∧
        0 ∉ (usersInit.users j).password ∧ (usersInit.users j).password.length < 32 := by
    decide +kernel
  obtain ⟨name, password⟩ := made i active
  exact ⟨⟨name.1, name.2⟩, ⟨password.1, password.2⟩⟩

theorem Fielded.change {t next : Accounts} {call : Users.Call} (fielded : Fielded t)
    (change : Change t call next) :
    Fielded next := by
  intro i active
  rcases change.account active with ⟨kept, before⟩ | ⟨username, password, uid, gid, rfl, free, made⟩
  · rw [kept]
    exact fielded i before
  · grind [field_safestrcpy]

theorem fielded_run {calls : List Users.Call} {t : Accounts}
    (reached : run afterCall usersInit calls = some t) :
    Fielded t := by
  have step : ∀ t call next, True → Fielded t → afterCall t call = some next → Fielded next := by
    intro t call next _ here taken
    cases taken
    exact here.change (perform_change t call)
  exact run_keeps step (fun _ _ => trivial) reached fielded_init

end Fields

section Lookup

theorem firstSlot_eq_some {test : Fin NUSER → Bool} {i : Fin NUSER} :
    firstSlot test = some i ↔ test i = true ∧ ∀ j < i, test j = false := by
  unfold firstSlot
  rw [← Fin.find?_eq_find?_finRange, Fin.find?_eq_some_iff]

variable {t : Accounts} {name username password : List UInt8} {uid gid : Int} {i slot : Fin NUSER}

/-- The name finds this account. -/
def Named (t : Accounts) (name : List UInt8) (i : Fin NUSER) : Prop :=
  (t.users i).active = true ∧ (t.users i).username = name

theorem Fielded.test (fielded : Fielded t) (text : 0 ∉ name) (i : Fin NUSER) :
    ((t.users i).active && strncmp (t.users i).username name 16 == 0) = true ↔ Named t name i := by
  rw [Bool.and_eq_true, beq_iff_eq]
  exact and_congr_right fun active => (fielded i active).1.strncmp_eq_zero text

/-- The first account of the name. -/
theorem Fielded.findName_eq (fielded : Fielded t) (text : 0 ∉ name) :
    findName t name = some i ↔ Named t name i ∧ ∀ j < i, ¬ Named t name j := by
  unfold findName
  rw [firstSlot_eq_some, fielded.test text]
  refine and_congr_right fun _ => forall₂_congr fun j _ => ?_
  rw [← fielded.test text, Bool.not_eq_true]

theorem Fielded.findName_eq_none (fielded : Fielded t) (text : 0 ∉ name) :
    findName t name = none ↔ ∀ j, ¬ Named t name j := by
  unfold findName
  rw [firstSlot_none]
  refine forall_congr' fun j => ?_
  rw [← fielded.test text, Bool.not_eq_true]

/-- What a login finds, for strings in the places of the name and of the password. -/
theorem Fielded.checkpassword (fielded : Fielded t) {secret : List UInt8} (text : 0 ∉ secret)
    (found : findName t name = some i) :
    usersCheckpassword t name secret = if (t.users i).password = secret then (t.users i).uid
      else -1 := by
  unfold usersCheckpassword
  rw [found]
  dsimp only
  rw [if_congr ((fielded i (findName_some found).1).2.strncmp_eq_zero text) rfl rfl]

end Lookup

section Add

variable {t : Accounts} {name username password : List UInt8} {uid gid : Int} {i slot : Fin NUSER}

theorem usersAdd_eq (free : findFree t = some slot) : usersAdd t username password uid gid =
    (0, setUser t slot ⟨uid, gid, safestrcpy username 16, safestrcpy password 32, true⟩) := by
  unfold usersAdd
  rw [free]
  rfl

theorem Fielded.usersAdd (fielded : Fielded t) :
    Fielded (Users.usersAdd t username password uid gid).2 :=
  fielded.change (perform_change t (.add username password uid gid))

theorem not_named_free (free : findFree t = some slot) : ¬ Named t name slot := by
  intro named
  have inactive := findFree_some free
  rw [named.1] at inactive
  cases inactive

theorem named_setUser {user : User} (active : user.active = true) (j : Fin NUSER) :
    Named (setUser t slot user) name j ↔ if j = slot then user.username = name else Named t
      name j := by
  unfold Named
  split
  · rename_i here
    rw [here]
    change (Function.update t.users slot user slot).active = true ∧
      (Function.update t.users slot user slot).username = name ↔ _
    grind
  · rename_i other
    rw [setUser_other other]

/-- A name that finds the new account finds it, unless an older one comes first. -/
theorem Fielded.findName_added (fielded : Fielded t) (field : Field 16 username)
    (free : findFree t = some slot) :
    findName (Users.usersAdd t username password uid gid).2 username =
      some (match findName t username with
      | some i => if slot < i then slot else i
      | none => slot) := by
  have named : ∀ j, Named (Users.usersAdd t username password uid gid).2 username j ↔ j = slot ∨
    Named t username j := by
    intro j
    rw [usersAdd_eq free, named_setUser rfl]
    grind [Field.safestrcpy_eq]
  rw [fielded.usersAdd.findName_eq field.text]
  cases found : findName t username with
  | none =>
    rw [fielded.findName_eq_none field.text] at found
    refine ⟨(named slot).mpr (Or.inl rfl), fun j before there => ?_⟩
    rcases (named j).mp there with same | old
    · exact absurd same (Fin.ne_of_lt before)
    · exact found j old
  | some i =>
    obtain ⟨here, first⟩ := (fielded.findName_eq field.text).mp found
    dsimp only
    split
    · rename_i before
      refine ⟨(named slot).mpr (Or.inl rfl), fun j less there => ?_⟩
      rcases (named j).mp there with same | old
      · exact absurd same (Fin.ne_of_lt less)
      · exact first j (less.trans before) old
    · rename_i behind
      refine ⟨(named i).mpr (Or.inr here), fun j less there => ?_⟩
      rcases (named j).mp there with same | old
      · exact behind (same ▸ less)
      · exact first j less old

/-- A name that the new account does not have finds what it found. -/
theorem Fielded.findName_other (fielded : Fielded t) (text : 0 ∉ name)
    (free : findFree t = some slot) (other : safestrcpy username 16 ≠ name) :
    findName (Users.usersAdd t username password uid gid).2 name = findName t name := by
  have named : ∀ j, Named (Users.usersAdd t username password uid gid).2 name j ↔ Named t name j :=
    by
    intro j
    rw [usersAdd_eq free, named_setUser rfl]
    grind [not_named_free]
  cases found : findName t name with
  | none =>
    grind [usersAdd, findName_eq_none]
  | some i =>
    grind [usersAdd, findName_eq]

end Add

section Law

variable {t : Accounts} {username password : List UInt8} {uid gid : Int}

/-- A login sets the uid and the gid to the uid that was found. -/
theorem sysLogin_eq (k : Kernel) (p : Fin NPROC) (name secret : List UInt8) :
    sysLogin k p name secret = if usersCheckpassword k.accounts name secret < 0 then (-1, k)
      else (0, k.setCreds p (usersCheckpassword k.accounts name secret)
        (usersCheckpassword k.accounts name secret)) := rfl

theorem setCreds_self (k : Kernel) (p : Fin NPROC) (uid gid : Int) :
    ((k.setCreds p uid gid).ptable.proc p).uid = uid ∧
      ((k.setCreds p uid gid).ptable.proc p).gid = gid := by
  grind [Kernel.setCreds, Process.modify_proc_self]

/-- What is expected after an account was added: it logs in, with no other password, and those that
logged in before still do. -/
structure AddThenLogin (t : Accounts) (username password : List UInt8) (uid gid : Int) : Prop where
  enters : ∀ table p, ∃ k, sysLogin ⟨table, (usersAdd t username password uid gid).2⟩ p
    username password = (0, k) ∧
    (k.ptable.proc p).uid = uid ∧ (k.ptable.proc p).gid = gid
  others : ∀ table p secret, 0 ∉ secret → secret ≠ password →
    (sysLogin ⟨table, (usersAdd t username password uid gid).2⟩ p username secret).1 = -1
  before : ∀ table p name secret, 0 ∉ name → 0 ∉ secret →
    (sysLogin ⟨table, t⟩ p name secret).1 = 0 →
    (sysLogin ⟨table, (usersAdd t username password uid gid).2⟩ p name secret).1 = 0 ∧
      (sysLogin ⟨table, (usersAdd t username password uid gid).2⟩ p name secret).2.uid p =
        (sysLogin ⟨table, t⟩ p name secret).2.uid p

/-- The strings fit their fields, the gid is the uid, and an account of the name is the same one or
comes behind and cannot log in. -/
structure AddFits (t : Accounts) (username password : List UInt8) (uid gid : Int) : Prop where
  name : username.length < 16
  secret : password.length < 32
  group : gid = uid
  alone : ∀ i, findName t username = some i → (t.users i).password = password ∧
    (t.users i).uid = uid ∨ (t.users i).uid < 0 ∧ ∀ slot, findFree t = some slot → slot < i

/-- The same without the process. -/
theorem addThenLogin_iff : AddThenLogin t username password uid gid ↔
    (0 ≤ uid ∧ gid = uid ∧ usersCheckpassword (usersAdd t username password uid gid).2
      username password = uid) ∧
    (∀ secret, 0 ∉ secret → secret ≠ password →
      usersCheckpassword (usersAdd t username password uid gid).2 username secret < 0) ∧
    ∀ name secret, 0 ∉ name → 0 ∉ secret → 0 ≤ usersCheckpassword t name secret →
      usersCheckpassword (usersAdd t username password uid gid).2 name secret = usersCheckpassword t
        name secret := by
  constructor
  · intro law
    refine ⟨?_, fun secret text other => ?_, fun name secret named text entered => ?_⟩
    · obtain ⟨k, entered, hasUid, hasGid⟩ := law.enters userShell.ptable 0
      grind [sysLogin_eq, Prod.mk.inj, setCreds_self]
    · have refused := law.others userShell.ptable 0 secret text other
      grind [sysLogin_eq]
    · have first : sysLogin ⟨userShell.ptable, t⟩ 0 name secret = _ := sysLogin_eq _ 0 name secret
      rw [if_neg (Int.not_lt.mpr entered)] at first
      obtain ⟨again, same⟩ := law.before userShell.ptable 0 name secret named text (by rw [first])
      rw [first] at same
      rw [sysLogin_eq] at again same
      split at again
      · exact absurd again (show (-1 : Int) ≠ 0 by decide)
      · rename_i found
        rw [if_neg found] at same
        exact (setCreds_self _ 0 _ _).1.symm.trans (same.trans (setCreds_self _ 0 _ _).1)
  · rintro ⟨⟨positive, group, found⟩, others, before⟩
    refine ⟨fun table p => ?_, fun table p secret text other => ?_,
      fun table p name secret named text entered => ?_⟩
    · rw [sysLogin_eq]
      rw [found, if_neg (Int.not_lt.mpr positive), group]
      exact ⟨_, rfl, setCreds_self _ p uid uid⟩
    · rw [sysLogin_eq, if_pos (others secret text other)]
    · rw [sysLogin_eq] at entered
      split at entered
      · exact absurd entered (show (-1 : Int) ≠ 0 by decide)
      · rename_i found
        have same := before name secret named text (Int.not_lt.mp found)
        rw [sysLogin_eq, sysLogin_eq]
        rw [same, if_neg found, if_neg found]
        exact ⟨rfl, (setCreds_self _ p _ _).1.trans (setCreds_self _ p _ _).1.symm⟩

section Added

variable {slot : Fin NUSER} (fielded : Fielded t) (field : Field 16 username)
  (secret : 0 ∉ password) (free : findFree t = some slot)

theorem added_slot (free : findFree t = some slot) :
    (usersAdd t username password uid gid).2.users slot =
    ⟨uid, gid, safestrcpy username 16, safestrcpy password 32, true⟩ := by
  rw [usersAdd_eq free]
  exact Function.update_self _ _ _

theorem added_other {name : List UInt8} {i : Fin NUSER} (free : findFree t = some slot)
    (found : findName t name = some i) :
    (usersAdd t username password uid gid).2.users i = t.users i := by
  have apart : i ≠ slot := by
    rintro rfl
    have inactive := findFree_some free
    rw [(findName_some found).1] at inactive
    cases inactive
  rw [usersAdd_eq free]
  exact setUser_other apart _

include fielded field secret free

/-- The new account answers, or an older one of the same name. -/
theorem added_login :
    usersCheckpassword (usersAdd t username password uid gid).2 username password =
    match findName t username with
    | some i => if slot < i then (if password.length < 32 then uid else -1)
        else if (t.users i).password = password then (t.users i).uid else -1
    | none => if password.length < 32 then uid else -1 := by
  have found := @Fielded.findName_added t username password uid gid slot fielded field free
  have new : findName (usersAdd t username password uid gid).2 username = some slot →
      usersCheckpassword (usersAdd t username password uid gid).2 username password =
        if password.length < 32 then uid else -1 := by
    intro here
    rw [fielded.usersAdd.checkpassword secret here, added_slot free]
    refine if_congr ⟨fun same => ?_, fun short => ?_⟩ rfl rfl
    · rw [← same]
      exact (field_safestrcpy password 31).short
    · exact Field.safestrcpy_eq ⟨secret, short⟩
  cases old : findName t username with
  | none =>
    rw [old] at found
    exact new found
  | some i =>
    rw [old] at found
    dsimp only at found ⊢
    split
    · grind
    · rename_i behind
      rw [if_neg behind] at found
      rw [fielded.usersAdd.checkpassword secret found, added_other free old]

end Added

/-- A name of 16 bytes or more finds nobody. -/
theorem Fielded.findName_long (fielded : Fielded t) (text : 0 ∉ username)
    (long : 16 ≤ username.length) :
    findName t username = none := by
  rw [fielded.findName_eq_none text]
  rintro j ⟨active, named⟩
  have short := (fielded j active).1.short
  rw [named] at short
  omega

/-- An account that was added logs in, and is the only one in its way, exactly if its strings fit,
its gid is its uid, and no other account of the name differs from it. -/
theorem add_then_login_iff {calls : List Users.Call}
    (reached : run afterCall usersInit calls = some t) (text : 0 ∉ username) (secret : 0 ∉ password)
    (positive : 0 ≤ uid) (added : (usersAdd t username password uid gid).1 = 0) :
    AddThenLogin t username password uid gid ↔ AddFits t username password uid gid := by
  have fielded := fielded_run reached
  obtain ⟨slot, free⟩ : ∃ slot, findFree t = some slot := by
    cases here : findFree t with
    | some slot => exact ⟨slot, rfl⟩
    | none =>
      unfold usersAdd at added
      rw [here] at added
      exact absurd added (show (-1 : Int) ≠ 0 by decide)
  rw [addThenLogin_iff]
  constructor
  · rintro ⟨⟨_, group, entered⟩, others, before⟩
    have name : username.length < 16 := by
      by_contra long
      unfold usersCheckpassword at entered
      rw [fielded.usersAdd.findName_long text (Nat.not_lt.mp long)] at entered
      dsimp only at entered
      omega
    have login := @added_login t username password uid gid slot fielded ⟨text, name⟩ secret free
    rw [entered] at login
    cases old : findName t username with
    | none =>
      rw [old] at login
      dsimp only at login
      refine ⟨name, ?_, group, fun i here => ?_⟩
      · by_contra long
        rw [if_neg long] at login
        omega
      · rw [old] at here
        cases here
    | some i =>
      rw [old] at login
      dsimp only at login
      by_cases behind : slot < i
      · rw [if_pos behind] at login
        have short : password.length < 32 := by
          by_contra long
          rw [if_neg long] at login
          omega
        refine ⟨name, short, group, fun j here => ?_⟩
        rw [old] at here
        cases here
        by_cases negative : (t.users i).uid < 0
        · refine Or.inr ⟨negative, fun other here => ?_⟩
          rw [free] at here
          cases here
          exact behind
        · -- It logged in before, so it has to be let in by the new account.
          have old' := (fielded i (findName_some old).1).2
          have first := fielded.checkpassword old'.text old
          rw [if_pos rfl] at first
          have again := before username _ text old'.text (by omega)
          by_cases same : (t.users i).password = password
          · rw [same, entered, ← same, first] at again
            exact Or.inl ⟨same, again.symm⟩
          · have refused := others _ old'.text same
            omega
      · rw [if_neg behind] at login
        by_cases same : (t.users i).password = password
        · rw [if_pos same] at login
          refine ⟨name, ?_, group, fun j here => ?_⟩
          · rw [← same]
            exact (fielded i (findName_some old).1).2.short
          · rw [old] at here
            cases here
            exact Or.inl ⟨same, login.symm⟩
        · rw [if_neg same] at login
          omega
  · intro fits
    have field : Field 16 username := ⟨text, fits.name⟩
    have entered : usersCheckpassword (usersAdd t username password uid gid).2
      username password = uid := by
      rw [added_login fielded field secret free, if_pos fits.secret]
      cases old : findName t username with
      | none => rfl
      | some i =>
        dsimp only
        split
        · rfl
        · rename_i behind
          rcases fits.alone i old with ⟨same, equal⟩ | ⟨_, first⟩
          · rw [if_pos same, equal]
          · exact absurd (first slot free) behind
    -- The account that the name finds now has this password.
    have only : ∀ other, 0 ∉ other → other ≠ password →
        usersCheckpassword (usersAdd t username password uid gid).2 username other < 0 := by
      intro other plain differs
      obtain ⟨j, found⟩ : ∃ j, findName (usersAdd t username password uid gid).2
        username = some j :=
        ⟨_, fielded.findName_added field free⟩
      have new := fielded.usersAdd.checkpassword secret found
      rw [entered] at new
      rw [fielded.usersAdd.checkpassword plain found]
      split at new
      · rename_i same
        rw [if_neg fun equal => differs (equal.symm.trans same)]
        decide
      · omega
    refine ⟨⟨positive, fits.group, entered⟩, only, fun name other named plain before => ?_⟩
    by_cases same : username = name
    · subst same
      cases old : findName t username with
      | none =>
        unfold usersCheckpassword at before
        rw [old] at before
        exact absurd before (show ¬ (0 : Int) ≤ -1 by decide)
      | some i =>
        rw [fielded.checkpassword plain old] at before ⊢
        split at before
        · rename_i equal
          rw [if_pos equal]
          rcases fits.alone i old with ⟨password, uid⟩ | ⟨negative, _⟩
          · rw [← equal, password, entered, uid]
          · omega
        · exact absurd before (by decide)
    · have kept : findName (usersAdd t username password uid gid).2 name = findName t name :=
        fielded.findName_other named free fun equal => same (field.safestrcpy_eq.symm.trans equal)
      unfold usersCheckpassword
      rw [kept]
      cases found : findName t name with
      | none => rfl
      | some i =>
        dsimp only
        rw [added_other free found]

theorem add_then_login_iff_alice : AddThenLogin usersInit (bytes "alice") (bytes "secret") 7 7 :=
  (@add_then_login_iff usersInit (bytes "alice") (bytes "secret") 7 7 [] rfl (by decide +kernel)
    (by decide +kernel)
    (by decide) rfl).mpr ⟨by decide +kernel, by decide +kernel, rfl, by decide +kernel⟩

/-- An account of another group gets the wrong gid. -/
theorem added_login_wrong_group :
    ¬ ∀ (calls : List Users.Call) (t : Accounts) (username password : List UInt8)
    (uid gid : Int), run afterCall usersInit calls = some t → 0 ∉ username →
      0 ∉ password → 0 ≤ uid →
    (usersAdd t username password uid gid).1 = 0 → AddThenLogin t username password uid gid := by
  intro always
  have law := always [] usersInit (bytes "alice") (bytes "secret") 7 100 rfl (by decide +kernel)
    (by decide +kernel) (by decide) rfl
  exact absurd (addThenLogin_iff.mp law).1.2.1 (by decide)

end Law

end Xv6.Credentials
