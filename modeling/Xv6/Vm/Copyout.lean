import Xv6.Vm.Stack

/- `copyout` for every directory, address and length. It reads through a null pointer where it
comes to a page that has no page table; up to there it copies what the user may use. -/
namespace Xv6.Vm

open Exec hiding panic
open Fs (Block get32 set32 overwrite)

/-- The user has no access to the directory and its page tables, nor to addresses for which
`P2V` is not a kernel address. -/
structure Directory (mem : Nat → Block) (d : Nat) : Prop where
  apart : ∀ b < 2 ^ 20, UserOk mem d b → ∀ n, pageAt mem d b = some n → n ∉ frames mem d
  memory : ∀ b < 2 ^ 20, UserOk mem d b → ∀ n, pageAt mem d b = some n → n < 2 ^ 19

/-- The page of byte `k` from `va` on; addresses wrap. -/
def touched (va k : Nat) : Nat := add32 va k / PGSIZE

def offset (va k : Nat) : Nat := add32 va k % PGSIZE

/-- The user may use the pages of bytes 0 to `k`. -/
def Clear (mem : Nat → Block) (d va k : Nat) : Prop := ∀ i ≤ k, UserOk mem d (touched va i)

/-- There is a page table for each page up to the first one that the user may not use. -/
def Tables (mem : Nat → Block) (d va len : Nat) : Prop :=
  ∀ k < len, (∀ i < k, UserOk mem d (touched va i)) →
    tableOf mem d (touched va k / NPTENTRIES) ≠ none

/-- What `copyout` is for: `r` says whether the user may use all pages, and the bytes up to the
first other page are in place, unless a later one went to the same place. -/
structure CopiedOut (s : State) (d va : Nat) (bytes : List UInt8) (r : Int) (s' : State) :
    Prop where
  result : r = 0 ∨ r = -1
  accepts : r = 0 ↔ ∀ k < bytes.length, UserOk s.mem d (touched va k)
  copied : ∀ k < bytes.length, Clear s.mem d va k → ∀ n, pageAt s.mem d (touched va k) = some n →
    (∀ l < bytes.length, k < l → Clear s.mem d va l → pageAt s.mem d (touched va l) = some n →
      offset va l ≠ offset va k) → s'.mem n (offset va k) = bytes.getD k 0
  frame : ∀ n o, (∀ k < bytes.length, Clear s.mem d va k → pageAt s.mem d (touched va k) = some n →
    offset va k ≠ o) → s'.mem n o = s.mem n o
  rest : s' = { s with mem := s'.mem }

section Addresses

variable {va k m : Nat}

theorem touched_lt (va k : Nat) : touched va k < 2 ^ 20 := by
  simp only [touched, add32, PGSIZE]
  omega

theorem touched_zero (small : va < 2 ^ 32) : touched va 0 = va / PGSIZE := by
  rw [touched, add32, Nat.add_zero, Nat.mod_eq_of_lt small]

/-- The bytes up to the end of the page. -/
theorem touched_first (small : va < 2 ^ 32) (first : k < PGSIZE - va % PGSIZE) :
    touched va k = va / PGSIZE ∧ offset va k = va % PGSIZE + k := by
  simp only [touched, offset, add32, PGSIZE] at *
  omega

/-- The other ones are those from the next page on. -/
theorem add32_next (whole : m = PGSIZE - va % PGSIZE) :
    add32 va (m + k) = add32 (add32 (PGSIZE * (va / PGSIZE)) PGSIZE) k := by
  simp only [add32, PGSIZE] at *
  omega

theorem touched_next (whole : m = PGSIZE - va % PGSIZE) :
    touched va (m + k) = touched (add32 (PGSIZE * (va / PGSIZE)) PGSIZE) k := by
  rw [touched, add32_next whole, touched]

theorem offset_next (whole : m = PGSIZE - va % PGSIZE) :
    offset va (m + k) = offset (add32 (PGSIZE * (va / PGSIZE)) PGSIZE) k := by
  rw [offset, add32_next whole, offset]

end Addresses

section Round

variable {allowed : Stops} {s s' : State} {mem mem' : Nat → Block} {d va n m k len fuel : Nat}
  {bytes : List UInt8} {r : Int}

theorem clear_first (small : va < 2 ^ 32) (first : k < PGSIZE - va % PGSIZE) :
    Clear mem d va k ↔ UserOk mem d (va / PGSIZE) := by
  constructor
  · intro clear
    have user := clear 0 (Nat.zero_le k)
    rwa [touched_zero small] at user
  · intro user i le
    rwa [(touched_first small (by omega)).1]

theorem clear_next (small : va < 2 ^ 32) (whole : m = PGSIZE - va % PGSIZE) :
    Clear mem d va (m + k) ↔
      UserOk mem d (va / PGSIZE) ∧ Clear mem d (add32 (PGSIZE * (va / PGSIZE)) PGSIZE) k := by
  constructor
  · intro clear
    refine ⟨?_, fun i le => ?_⟩
    · have user := clear 0 (Nat.zero_le _)
      rwa [touched_zero small] at user
    · have user := clear (m + i) (by omega)
      rwa [touched_next whole] at user
  · rintro ⟨user, clear⟩ i le
    by_cases first : i < m
    · rwa [(touched_first small (by omega)).1]
    · obtain ⟨j, rfl⟩ := Nat.exists_eq_add_of_le (Nat.le_of_not_lt first)
      rw [touched_next whole]
      exact clear j (by omega)

section Same

variable (same : ∀ n ∈ frames mem d, mem' n = mem n)

include same

theorem userOk_congr (va k : Nat) : UserOk mem' d (touched va k) ↔ UserOk mem d (touched va k) := by
  rw [UserOk, UserOk, entryAt_congr same (touched_lt va k)]

theorem clear_congr (va k : Nat) : Clear mem' d va k ↔ Clear mem d va k :=
  forall_congr' fun i => imp_congr_right fun _ => userOk_congr same va i

theorem tables_congr (va len : Nat) : Tables mem' d va len ↔ Tables mem d va len := by
  unfold Tables
  rw [tableOf_congr (same d self_mem_frames)]
  exact forall_congr' fun k => imp_congr_right fun _ => imp_congr_left
    (forall_congr' fun i => imp_congr_right fun _ => userOk_congr same va i)

theorem pageAt_congr (va k : Nat) : pageAt mem' d (touched va k) = pageAt mem d (touched va k) := by
  rw [pageAt, pageAt, entryAt_congr same (touched_lt va k)]

theorem Directory.congr (dir : Directory mem d) : Directory mem' d := by
  refine ⟨fun b small user n here => ?_, fun b small user n here => ?_⟩
  · rw [UserOk, entryAt_congr same small] at user
    rw [pageAt, entryAt_congr same small] at here
    rw [frames_congr (same d self_mem_frames)]
    exact dir.apart b small user n here
  · rw [UserOk, entryAt_congr same small] at user
    rw [pageAt, entryAt_congr same small] at here
    exact dir.memory b small user n here

end Same

/-- The tables that are needed: one for the first page, and those for the rest. -/
theorem tables_next (small : va < 2 ^ 32) (size : m = min (PGSIZE - va % PGSIZE) len)
    (some : 0 < len) (user : UserOk mem d (va / PGSIZE))
    (table : tableOf mem d (va / PGSIZE / NPTENTRIES) ≠ none) :
    Tables mem d va len ↔ Tables mem d (add32 (PGSIZE * (va / PGSIZE)) PGSIZE) (len - m) := by
  have first : ∀ i, i < m → touched va i = va / PGSIZE := fun i less =>
    (touched_first small (by omega)).1
  constructor
  · intro tables k less before
    have whole : m = PGSIZE - va % PGSIZE := by omega
    rw [← touched_next whole]
    refine tables (m + k) (by omega) fun i low => ?_
    by_cases early : i < m
    · rwa [first i early]
    · obtain ⟨j, rfl⟩ := Nat.exists_eq_add_of_le (Nat.le_of_not_lt early)
      rw [touched_next whole]
      exact before j (by omega)
  · intro tables k less before
    by_cases early : k < m
    · rwa [first k early]
    · have whole : m = PGSIZE - va % PGSIZE := by omega
      obtain ⟨j, rfl⟩ := Nat.exists_eq_add_of_le (Nat.le_of_not_lt early)
      rw [touched_next whole]
      refine tables j (by omega) fun i low => ?_
      rw [← touched_next whole]
      exact before (m + i) (by omega)

/-- The bytes of the first page, and then the rest. -/
theorem CopiedOut.next (small : va < 2 ^ 32) (size : m = min (PGSIZE - va % PGSIZE) bytes.length)
    (user : UserOk s.mem d (va / PGSIZE)) (here : pageAt s.mem d (va / PGSIZE) = some n)
    (apart : n ∉ frames s.mem d)
    (copied : CopiedOut (s.putPage n (overwrite (s.mem n) (va % PGSIZE) (bytes.take m))) d
      (add32 (PGSIZE * (va / PGSIZE)) PGSIZE) (bytes.drop m) r s') :
    CopiedOut s d va bytes r s' := by
  have others : ∀ k, k ≠ n → (s.putPage n (overwrite (s.mem n) (va % PGSIZE) (bytes.take m))).mem
    k = s.mem k :=
    fun k other => Function.update_of_ne other _ _
  have written : (s.putPage n (overwrite (s.mem n) (va % PGSIZE) (bytes.take m))).mem n =
      overwrite (s.mem n) (va % PGSIZE) (bytes.take m) := Function.update_self _ _ _
  have rest := copied.rest
  generalize new : s.putPage n (overwrite (s.mem n) (va % PGSIZE) (bytes.take m)) =
    s1 at copied others written rest
  have same : ∀ k ∈ frames s.mem d, s1.mem k = s.mem k := by grind
  have length : (bytes.drop m).length = bytes.length - m := List.length_drop
  have taken : (bytes.take m).length = m := by
    rw [List.length_take]
    omega
  have first : ∀ k, k < m → touched va k = va / PGSIZE ∧ offset va k = va % PGSIZE + k :=
    fun k less => touched_first small (by omega)
  refine ⟨copied.result, ?_, ?_, ?_, ?_⟩
  · rw [copied.accepts, length]
    constructor
    · intro all k less
      by_cases early : k < m
      · rwa [(first k early).1]
      · obtain ⟨j, rfl⟩ := Nat.exists_eq_add_of_le (Nat.le_of_not_lt early)
        rw [touched_next (by omega), ← userOk_congr same]
        exact all j (by omega)
    · intro all k less
      rw [userOk_congr same, ← touched_next (show m = _ by omega)]
      exact all (m + k) (by omega)
  · intro k less clear n' there alone
    by_cases early : k < m
    · rw [(first k early).1, here] at there
      cases there
      have still : s'.mem n (offset va k) = s1.mem n (offset va k) := by
        refine copied.frame n _ fun j below clear' there' => ?_
        have whole : m = PGSIZE - va % PGSIZE := by omega
        rw [clear_congr same] at clear'
        rw [pageAt_congr same, ← touched_next whole] at there'
        rw [← offset_next whole]
        exact alone (m + j) (by omega) (by omega)
          ((clear_next small whole).mpr ⟨user, clear'⟩) there'
      rw [still, written, (first k early).2, Fs.overwrite_inside _ _ _ _ (by omega) (by omega),
        Nat.add_sub_cancel_left,
        List.getD_eq_getElem _ _ (by omega), List.getD_eq_getElem _ _ less, List.getElem_take]
    · have whole : m = PGSIZE - va % PGSIZE := by omega
      obtain ⟨j, rfl⟩ := Nat.exists_eq_add_of_le (Nat.le_of_not_lt early)
      rw [touched_next whole, ← pageAt_congr same] at there
      rw [offset_next whole] at alone ⊢
      have clear' := (clear_congr same _ _).mpr ((clear_next small whole).mp clear).2
      rw [copied.copied j (by omega) clear' n' there, List.getD_eq_getElem _ _ (by omega),
        List.getD_eq_getElem _ _ less, List.getElem_drop]
      intro l below later clear'' there'
      rw [clear_congr same] at clear''
      rw [pageAt_congr same, ← touched_next whole] at there'
      rw [← offset_next whole]
      exact alone (m + l) (by omega) (by omega)
        ((clear_next small whole).mpr ⟨user, clear''⟩) there'
  · intro n' o outside
    have still : s'.mem n' o = s1.mem n' o := by
      refine copied.frame n' o fun j below clear' there' => ?_
      have whole : m = PGSIZE - va % PGSIZE := by omega
      rw [clear_congr same] at clear'
      rw [pageAt_congr same, ← touched_next whole] at there'
      rw [← offset_next whole]
      exact outside (m + j) (by omega) ((clear_next small whole).mpr ⟨user, clear'⟩) there'
    rw [still]
    by_cases at' : n' = n
    · rw [at', written]
      refine Fs.overwrite_outside _ _ _ _ ?_
      by_contra inside
      have early : o - va % PGSIZE < m := by omega
      refine outside (o - va % PGSIZE) (by omega) ((clear_first small (by omega)).mpr user) ?_ ?_
      · rw [(first _ early).1, here, at']
      · rw [(first _ early).2]
        omega
    · rw [others n' at']
  · rw [rest, ← new]
    rfl

/-- What a call of `copyout` comes to; without a page table it does not return. -/
theorem copyout_copies (dir : Directory s.mem d) (small : va < 2 ^ 32)
    (enough : bytes.length ≤ fuel) (waits : ¬ Tables s.mem d va bytes.length → allowed.waits) :
    Spec allowed (copyout.loop d fuel va bytes) s fun r s' =>
      Tables s.mem d va bytes.length ∧ CopiedOut s d va bytes r s' := by
  induction fuel generalizing s va bytes with
  | zero =>
    rw [List.length_eq_zero_iff.mp (Nat.le_zero.mp enough), copyout.loop]
    have none (k : Nat) : ¬ k < ([] : List UInt8).length := Nat.not_lt_zero k
    exact Spec.pure ⟨fun k less => absurd less (none k), Or.inl rfl, iff_of_true rfl fun k less =>
      absurd less (none k), fun k less => absurd less (none k), fun _ _ _ => rfl, rfl⟩
  | succ fuel ih =>
    by_cases more : bytes = []
    · grind [copyout.loop, Spec.pure]
    have some : 0 < bytes.length := List.length_pos_iff.mpr more
    have page : va / PGSIZE < 2 ^ 20 := by
      simp only [PGSIZE]
      omega
    rw [copyout_round more]
    refine Spec.bind (uva2ka_finds page fun none => waits fun tables => ?_) ?_
    · have table := tables 0 some fun i less => absurd less (Nat.not_lt_zero i)
      rw [touched_zero small] at table
      exact table none
    rintro found s1 ⟨rfl, table, ⟨rfl, hidden⟩ | ⟨user, there⟩⟩
    · have never : ∀ k, ¬ Clear s1.mem d va k := by
        intro k clear
        have user := clear 0 (Nat.zero_le k)
        rw [touched_zero small] at user
        exact hidden user
      refine Spec.pure ⟨fun k less before => ?_, Or.inr rfl, iff_of_false (by decide) fun all => ?_,
        fun k _ clear => (never k clear).elim, fun _ _ _ => rfl, rfl⟩
      · cases k with
        | zero => rwa [touched_zero small]
        | succ k =>
          have user := before 0 (Nat.succ_pos k)
          grind [touched_zero]
      · have user := all 0 some
        rw [touched_zero small] at user
        exact hidden user
    · obtain ⟨w, word, allows⟩ := user
      have here : pageAt s1.mem d (va / PGSIZE) = Option.some (pageOf w) := by
        rw [pageAt, word, Option.map_some]
      have user : UserOk s1.mem d (va / PGSIZE) := ⟨w, word, allows⟩
      have apart := dir.apart _ page user _ here
      rw [there, here]
      refine Spec.bind_get ?_
      refine Spec.bind (setPage_spec _ _) ?_
      rintro _ s2 rfl
      generalize size : min (PGSIZE - va % PGSIZE) bytes.length = m
      have same : ∀ k ∈ frames s1.mem d, (s1.putPage (pageOf w)
          (overwrite (s1.mem (pageOf w)) (va % PGSIZE) (bytes.take m))).mem k = s1.mem k := by
        intro k member
        have other : k ≠ pageOf w := fun equal => apart (equal ▸ member)
        exact Function.update_of_ne other _ _
      have split := tables_next small size.symm some user table
      have length : (bytes.drop m).length = bytes.length - m := List.length_drop
      have next : add32 (PGSIZE * (va / PGSIZE)) PGSIZE < 2 ^ 32 := by
        rw [add32]
        omega
      have shorter : (bytes.drop m).length ≤ fuel := by grind
      refine Spec.mono (ih (dir.congr same) next shorter fun missing => waits ?_) ?_
      · rwa [tables_congr same, length, ← split] at missing
      · grind [tables_congr, CopiedOut.next]

/-- For every directory, address and length `copyout` does what it is for exactly if there is a
page table for each page that it comes to. -/
theorem copyout_respects_iff (dir : Directory s.mem d) (small : va < 2 ^ 32) :
    (∃ r s', copyout d va bytes s = .ok (r, s') ∧ CopiedOut s d va bytes r s') ↔
      Tables s.mem d va bytes.length := by
  constructor
  · rintro ⟨r, s', returned, _⟩
    have spec : Spec Stops.all (copyout d va bytes) s _ := copyout_copies dir small (Nat.le_refl _)
      fun _ => trivial
    exact (spec.ok returned).1
  · intro tables
    have spec : Spec Stops.nothing (copyout d va bytes) s _ :=
      copyout_copies dir small (Nat.le_refl _) fun missing => (missing tables).elim
    obtain ⟨r, s', returned, _, copied⟩ := spec.total
    exact ⟨r, s', returned, copied⟩

theorem directory_onePage : Directory onePage.mem 1024 := by
  have only : ∀ b < 2 ^ 20, ∀ n, pageAt onePage.mem 1024 b = some n → n = 1026 := by
    intro b within n here
    rw [pageAt, entryAt_onePage within] at here
    split at here
    · cases here
      rfl
    · cases here
  refine ⟨fun b within _ n here => ?_, fun b within _ n here => ?_⟩
  · rw [only b within n here, frames_onePage]
    decide
  · rw [only b within n here]
    decide

/-- Ten bytes across the end of the page. -/
theorem copyout_respects_iff_onePage :
    ∃ r s', copyout 1024 4090 [1, 2, 3, 4, 5, 6, 7, 8, 9, 10] onePage = .ok (r, s') ∧
    CopiedOut onePage 1024 4090 [1, 2, 3, 4, 5, 6, 7, 8, 9, 10] r s' := by
  have small : 4090 < 2 ^ 32 := by decide
  refine (@copyout_respects_iff onePage 1024 4090 _ directory_onePage small).mpr ?_
  intro k less _ none
  have first : touched 4090 k / NPTENTRIES = 0 := by
    simp only [touched, add32, PGSIZE, NPTENTRIES, List.length_cons, List.length_nil] at *
    omega
  have here := entryAt_onePage (show 0 < 2 ^ 20 by decide)
  rw [first] at none
  rw [entryAt, Nat.zero_div, none, if_pos rfl] at here
  cases here

/-- With an empty directory it reads through a null pointer. -/
theorem copyout_no_table : copyout 1 0 [65] ⟨fun _ _ => 0, [], 0, fun _ => false⟩ = .blocked := by
  rfl

end Round

end Xv6.Vm
