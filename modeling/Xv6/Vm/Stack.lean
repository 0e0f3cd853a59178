import Mathlib.Data.List.GetD
import Xv6.Vm.Load

/- The user stack that `exec` makes: a guard page below one page with the arguments. A string that
does not fit in that page runs into the guard page. -/
namespace Xv6.Vm

open Exec hiding panic
open Contents
open Fs (Block get32 set32 overwrite bytes32)

variable {L : Layout} {allowed : Stops} {s s' s1 s2 s3 : State} {d n a b va top sz : Nat}
  {R : Multiset Nat} {page : Block}

section Flags

variable {w m perm : Nat}

theorem and_flags (w : Nat) (small : m < PGSIZE) : w &&& m = w % PGSIZE &&& m := by
  have less : w &&& m < 2 ^ 12 := Nat.lt_of_le_of_lt Nat.and_le_right small
  have cut := Nat.and_mod_two_pow (a := w) (b := m) (n := 12)
  rw [Nat.mod_eq_of_lt less, Nat.mod_eq_of_lt (show m < 2 ^ 12 from small)] at cut
  exact cut

/-- Clearing PTE_U leaves the page and the other flags. -/
theorem mapWord_clear (below : n < 2 ^ 20) :
    mapWord n (PTE_W ||| PTE_U) &&& (2 ^ 32 - 1 - PTE_U) = mapWord n PTE_W := by
  have high := Nat.and_div_two_pow (a := mapWord n (PTE_W ||| PTE_U))
    (b := 2 ^ 32 - 1 - PTE_U) (n := 12)
  have low := Nat.and_mod_two_pow (a := mapWord n (PTE_W ||| PTE_U))
    (b := 2 ^ 32 - 1 - PTE_U) (n := 12)
  have page : mapWord n (PTE_W ||| PTE_U) / 2 ^ 12 = n := pageOf_mapWord n (by decide)
  have flags : mapWord n (PTE_W ||| PTE_U) % 2 ^ 12 = 7 := mapWord_mod n (by decide)
  have whole : n &&& (2 ^ 20 - 1) = n := by
    rw [Nat.and_two_pow_sub_one_eq_mod, Nat.mod_eq_of_lt below]
  rw [page, show (2 ^ 32 - 1 - PTE_U) / 2 ^ 12 = 2 ^ 20 - 1 by decide, whole] at high
  rw [flags, show 7 &&& (2 ^ 32 - 1 - PTE_U) % 2 ^ 12 = 3 by decide] at low
  have clear : mapWord n PTE_W = 2 ^ 12 * n + 3 := mapWord_eq n (by decide)
  omega

/-- Whether the user may use page `b`. -/
def UserOk (mem : Nat → Block) (d b : Nat) : Prop := ∃ w, entryAt mem d b = some w ∧ w &&& PTE_U ≠ 0

theorem userOk_mapWord {mem : Nat → Block} (small : perm < PGSIZE)
    (here : entryAt mem d b = some (mapWord n perm)) :
    UserOk mem d b ↔ perm &&& PTE_U ≠ 0 := by
  have bit : mapWord n perm &&& PTE_U = perm &&& PTE_U := by
    rw [and_flags _ (by decide), mapWord_mod n small, Nat.and_or_distrib_right]
    exact Nat.or_zero _
  constructor
  · rintro ⟨w, there, set⟩
    grind
  · intro set
    exact ⟨_, here, by rwa [bit]⟩

end Flags

section Guard

theorem clearpteu_spec (lay : L.Fits) (good : Good L (s.free + space s.mem d + R))
    (within : a < UPAGES) (here : entryAt s.mem d a = some (mapWord n (PTE_W ||| PTE_U))) :
    Spec allowed (clearpteu d (PGSIZE * a)) s fun _ s' =>
      Moved s s' d R a (a + 1) ∧ entryAt s'.mem d a = some (mapWord n PTE_W) := by
  have bound := UPAGES_lt
  have page : pageAt s.mem d a = some n := by
    rw [pageAt, here, Option.map_some, pageOf_mapWord n (by decide)]
  have below : n < 2 ^ 20 := lay.lt (good.left.right.right.usable n (page_mem_leaves within page))
  have address : PGSIZE * a < 2 ^ 32 := by
    simp only [PGSIZE]
    omega
  refine Spec.bind (walkpgdir_reads d address) ?_
  rintro r s1 ⟨same, found⟩
  rw [Nat.mul_div_cancel_left a (by decide), here] at found
  obtain ⟨t, table, rfl, word, _⟩ := found
  rw [same]
  refine Spec.bind_get ?_
  rw [word, mapWord_clear below]
  have share : Good L (s.free + frames s.mem d + (leaves s.mem d + R)) := by
    rw [show s.free + frames s.mem d + (leaves s.mem d + R) = s.free + space s.mem d + R by
      rw [space]
      abel]
    exact good
  have still : Walked s s d (leaves s.mem d + R) := ⟨rfl, fun _ _ => rfl, fun _ _ => rfl⟩
  have set := still.entrySet share (show a < 2 ^ 20 by omega) table
    (mapWord_lt below (show PTE_W < PGSIZE by decide))
  refine Spec.modify ?_
  change Moved s (s.putWord t (a % NPTENTRIES) (mapWord n PTE_W)) d R a (a + 1) ∧
    entryAt (s.putWord t (a % NPTENTRIES) (mapWord n PTE_W)).mem d a = _
  generalize s.putWord t (a % NPTENTRIES) (mapWord n PTE_W) = s' at set
  have leaf : leaves s'.mem d = leaves s.mem d := by
    refine contents_congr fun b inside => ?_
    have inside := mem_upages.mp inside
    grind [pageAt, EntrySet.entries, entry_mapWord, pageOf_mapWord]
  refine ⟨⟨?_, fun b inside outside => ?_, fun b inside outside m there => ?_,
    fun m member => ?_⟩, ?_⟩
  · rw [space, space, leaf, ← add_assoc, ← add_assoc, set.pages]
  · rw [set.entries b inside, if_neg (by omega)]
  · exact set.frame m (Multiset.mem_add.mpr (Or.inl (page_mem_leaves inside there)))
  · exact set.frame m (Multiset.mem_add.mpr (Or.inr member))
  · rw [set.entries a (by omega), if_pos rfl, entry_mapWord]

end Guard

section Copyout

/-- It waits exactly where there is no page table. -/
theorem uva2ka_finds (small : b < 2 ^ 20)
    (waits : tableOf s.mem d (b / NPTENTRIES) = none → allowed.waits) :
    Spec allowed (uva2ka d (PGSIZE * b)) s fun r s' => s' = s ∧
      tableOf s.mem d (b / NPTENTRIES) ≠ none ∧
      (r = none ∧ ¬ UserOk s.mem d b ∨ UserOk s.mem d b ∧ r = pageAt s.mem d b) := by
  have address : PGSIZE * b < 2 ^ 32 := by
    simp only [PGSIZE]
    omega
  refine Spec.bind (walkpgdir_finds d address) ?_
  rintro r s1 ⟨rfl, found⟩
  rw [Nat.mul_div_cancel_left b (by decide)] at found
  rw [found]
  cases table : tableOf s1.mem d (b / NPTENTRIES) with
  | none => exact Spec.wait (waits table)
  | some t =>
    refine Spec.bind_get ?_
    dsimp only
    have word : entryAt s1.mem d b = entry (get32 (s1.mem t) (b % NPTENTRIES)) := by
      rw [entryAt, table, Option.bind_some]
    split
    · rename_i clear
      refine Spec.pure ⟨rfl, Option.some_ne_none t, Or.inl ⟨rfl, ?_⟩⟩
      rintro ⟨w, there, _⟩
      rw [word, entry_eq_none.mpr clear] at there
      cases there
    · rename_i set
      rw [entry_eq_some.mpr ⟨set, rfl⟩] at word
      split
      · rename_i clear
        refine Spec.pure ⟨rfl, Option.some_ne_none t, Or.inl ⟨rfl, ?_⟩⟩
        rintro ⟨w, there, user⟩
        grind
      · rename_i user
        refine Spec.pure ⟨rfl, Option.some_ne_none t, Or.inr ⟨⟨_, word, user⟩, ?_⟩⟩
        rw [pageAt, word]
        rfl

theorem uva2ka_spec (small : b < 2 ^ 20) (mapped : entryAt s.mem d b = none → allowed.waits) :
    Spec allowed (uva2ka d (PGSIZE * b)) s fun r s' => s' = s ∧
      (r = none ∧ ¬ UserOk s.mem d b ∨ UserOk s.mem d b ∧ r = pageAt s.mem d b) := by
  refine Spec.mono (uva2ka_finds small fun none => mapped ?_) ?_
  · rw [entryAt, none, Option.bind_none]
  · simp

variable {bytes : List UInt8}

theorem copyout_eq {d va : Nat} {bytes : List UInt8} (more : bytes ≠ []) :
    ∃ fuel, bytes.length = fuel + 1 ∧ copyout d va bytes = copyout.loop d (fuel + 1) va bytes := by
  have length : bytes.length ≠ 0 := fun zero => more (List.length_eq_zero_iff.mp zero)
  obtain ⟨fuel, succ⟩ := Nat.exists_eq_succ_of_ne_zero length
  exact ⟨fuel, succ, by rw [copyout, succ]⟩

/-- The bytes go to one page that the user may use. -/
theorem copyout_page (small : b < 2 ^ 20) (user : UserOk s.mem d b)
    (here : pageAt s.mem d b = some n) (start : va / PGSIZE = b)
    (fits : va % PGSIZE + bytes.length ≤ PGSIZE) (more : bytes ≠ []) :
    Spec allowed (copyout d va bytes) s fun r s' =>
      r = 0 ∧ s' = s.putPage n (overwrite (s.mem n) (va % PGSIZE) bytes) := by
  have mapped : entryAt s.mem d b = none → allowed.waits := by grind [pageAt]
  have whole : min (PGSIZE - va % PGSIZE) bytes.length = bytes.length := by omega
  obtain ⟨fuel, _, same⟩ := @copyout_eq d va bytes more
  rw [same, copyout_round more, start, whole, List.take_length, List.drop_length]
  refine Spec.bind (uva2ka_spec small mapped) ?_
  rintro r s1 ⟨same, ⟨_, hidden⟩ | ⟨_, found⟩⟩
  · exact absurd user hidden
  · rw [same, found, here]
    refine Spec.bind_get ?_
    refine Spec.bind (setPage_spec n _) ?_
    grind [copyout.loop, Spec.pure]

/-- Where the user may not use the first page, nothing is copied. -/
theorem copyout_refused (small : va < 2 ^ 32) (hidden : ¬ UserOk s.mem d (va / PGSIZE))
    (mapped : entryAt s.mem d (va / PGSIZE) = none → allowed.waits) (more : bytes ≠ []) :
    Spec allowed (copyout d va bytes) s fun r s' => r = -1 ∧ s' = s := by
  have page : va / PGSIZE < 2 ^ 20 := by
    simp only [PGSIZE]
    omega
  obtain ⟨fuel, _, same⟩ := @copyout_eq d va bytes more
  rw [same, copyout_round more]
  refine Spec.bind (uva2ka_spec page mapped) ?_
  rintro r s1 ⟨same, ⟨none, _⟩ | ⟨user, _⟩⟩
  · rw [none, same]
    exact Spec.pure ⟨rfl, rfl⟩
  · exact absurd user hidden

/-- In an address space that has all pages below `top`: all is copied, or a page is in the way. -/
theorem copyout_loop {fuel : Nat} (good : Good L (s.free + space s.mem d + R))
    (bound : top ≤ UPAGES) (mapped : ∀ b < top, entryAt s.mem d b ≠ none)
    (fits : va + bytes.length ≤ PGSIZE * top) (enough : bytes.length ≤ fuel) :
    Spec allowed (copyout.loop d fuel va bytes) s fun r s' => Wrote s s' d R 0 top ∧
      (r = -1 ∨ r = 0 ∧ ∀ b, va / PGSIZE ≤ b → PGSIZE * b < va + bytes.length → bytes ≠ [] →
        UserOk s.mem d b) := by
  have small := UPAGES_lt
  by_cases more : bytes = []
  · grind [copyout.loop, Spec.pure, Wrote.refl]
  induction fuel generalizing s va bytes with
  | zero => exact absurd (List.length_eq_zero_iff.mp (Nat.le_zero.mp enough)) more
  | succ fuel ih =>
    have some : 0 < bytes.length := List.length_pos_iff.mpr more
    have inside : va / PGSIZE < top := by
      simp only [PGSIZE] at *
      omega
    have next : add32 (PGSIZE * (va / PGSIZE)) PGSIZE = PGSIZE * (va / PGSIZE + 1) := by
      simp only [add32, PGSIZE, UPAGES, KERNBASE] at *
      omega
    rw [copyout_round more, next]
    refine Spec.bind (uva2ka_spec (by omega) fun none => absurd none (mapped _ inside)) ?_
    rintro r s1 ⟨same, ⟨none, _⟩ | ⟨user, found⟩⟩
    · rw [none, same]
      exact Spec.pure ⟨Wrote.refl, Or.inl rfl⟩
    · obtain ⟨w, here, allows⟩ := user
      have page : pageAt s.mem d (va / PGSIZE) = Option.some (pageOf w) := by
        rw [pageAt, here, Option.map_some]
      rw [same, found, page]
      refine Spec.bind_get ?_
      refine Spec.bind (setPage_spec _ _) ?_
      rintro _ s2 rfl
      have wrote := good.putLeaf (show va / PGSIZE < UPAGES by omega) page
        (overwrite (s.mem (pageOf w)) (va % PGSIZE)
        (bytes.take (min (PGSIZE - va % PGSIZE) bytes.length)))
      generalize s.putPage (pageOf w) _ = s2 at wrote
      have wide : Wrote s s2 d R 0 top := wrote.widen (by omega)
      by_cases last : bytes.drop (min (PGSIZE - va % PGSIZE) bytes.length) = []
      · rw [last, copyout.loop]
        refine Spec.pure ⟨wide, Or.inr ⟨rfl, fun b low high _ => ?_⟩⟩
        have short : bytes.length ≤ PGSIZE - va % PGSIZE := by
          have zero := congrArg List.length last
          grind
        have only : b = va / PGSIZE := by
          simp only [PGSIZE] at *
          omega
        rw [only]
        exact ⟨w, here, allows⟩
      · have long : PGSIZE - va % PGSIZE < bytes.length := by
          have positive := List.length_pos_iff.mpr last
          rw [List.length_drop] at positive
          omega
        have left : PGSIZE * (va / PGSIZE + 1) +
            (bytes.drop (min (PGSIZE - va % PGSIZE) bytes.length)).length = va + bytes.length := by
          grind
        have shorter : (bytes.drop (min (PGSIZE - va % PGSIZE) bytes.length)).length ≤ fuel := by
          simp only [PGSIZE] at *
          omega
        refine Spec.mono (ih (wide.moved.good good) (fun b below => ?_) (by omega) shorter last) ?_
        · rw [wide.entries b (by omega)]
          exact mapped b below
        · rintro r s' ⟨wrote', result⟩
          refine ⟨wide.trans wrote', ?_⟩
          rcases result with failed | ⟨zero, behind⟩
          · exact Or.inl failed
          · refine Or.inr ⟨zero, fun b low high _ => ?_⟩
            by_cases first : b = va / PGSIZE
            · rw [first]
              exact ⟨w, here, allows⟩
            · rw [left, Nat.mul_div_cancel_left _ (by decide)] at behind
              obtain ⟨v, there, user⟩ := behind b (by omega) high last
              have below : b < 2 ^ 20 := by grind
              rw [wide.entries b below] at there
              exact ⟨v, there, user⟩

end Copyout

section Push

variable {bytes : List UInt8} {sp m : Nat}

/-- The new address space with its stack: `top` pages, the one below the last without PTE_U. -/
structure Stacked (L : Layout) (s s' : State) (d : Nat) (R : Multiset Nat) (top : Nat) : Prop where
  image : Image L s s' d R
  bound : PGSIZE * top < KERNBASE
  two : 2 ≤ top
  user : ∀ b < top, b ≠ top - 2 → ∃ n, entryAt s'.mem d b = some (mapWord n (PTE_W ||| PTE_U))
  guard : ∃ n, entryAt s'.mem d (top - 2) = some (mapWord n PTE_W)
  rest : ∀ b, top ≤ b → b < UPAGES → entryAt s'.mem d b = none

/-- The kernel part is not for the user. -/
theorem Layout.Sound.hidden (lay : L.Sound) {w : Nat} (here : L.entryFor b = some w) :
    w &&& PTE_U = 0 := by
  obtain ⟨k, member, made⟩ := List.exists_of_findSome?_eq_some here
  have row := lay.rows k member
  unfold Kmap.entryFor at made
  grind [and_flags, mapWord_mod, Kmap.Sound.perm, Kmap.Sound.hidden]

section Stacked

variable (stacked : Stacked L s s1 d R top)

include stacked

theorem Stacked.top_lt : top < UPAGES := by
  have bound := stacked.bound
  simp only [PGSIZE, UPAGES, KERNBASE] at *
  omega

theorem Stacked.mapped : ∀ b < top, entryAt s1.mem d b ≠ none := by
  intro b below
  by_cases guard : b = top - 2
  · obtain ⟨n, here⟩ := stacked.guard
    rw [guard, here]
    exact Option.some_ne_none _
  · obtain ⟨n, here⟩ := stacked.user b below guard
    rw [here]
    exact Option.some_ne_none _

theorem Stacked.guarded : ¬ UserOk s1.mem d (top - 2) := by
  obtain ⟨n, here⟩ := stacked.guard
  rw [userOk_mapWord (by decide) here]
  decide

theorem Stacked.stack : ∃ m, pageAt s1.mem d (top - 1) = some m ∧ UserOk s1.mem d (top - 1) := by
  have two := stacked.two
  obtain ⟨m, here⟩ := stacked.user (top - 1) (by omega) (by omega)
  refine ⟨m, ?_, ?_⟩
  · rw [pageAt, here, Option.map_some, pageOf_mapWord m (by decide)]
  · rw [userOk_mapWord (by decide) here]
    decide

theorem Stacked.wrote {lo hi : Nat} (wrote : Wrote s1 s2 d R lo hi) (user : hi ≤ UPAGES) :
    Stacked L s s2 d R top := by
  have small := UPAGES_lt
  have two := stacked.two
  have less := stacked.top_lt
  refine ⟨stacked.image.moved wrote.moved user, stacked.bound, two, fun b below other => ?_, ?_,
    fun b above within => ?_⟩
  · rw [wrote.entries b (by omega)]
    exact stacked.user b below other
  · rw [wrote.entries _ (by omega)]
    exact stacked.guard
  · rw [wrote.entries b (by omega)]
    exact stacked.rest b above within

/-- Where an address that wrapped around leads. -/
theorem Stacked.above (lay : L.Sound) (above : UPAGES ≤ b) (within : b < 2 ^ 20) :
    ¬ UserOk s1.mem d b := by
  rintro ⟨w, here, user⟩
  rw [stacked.image.kernel b above within] at here
  exact user (lay.hidden here)

end Stacked

/-- Bytes of stack for so many bytes of data. -/
def pushSize (length : Nat) : Nat := (length + 3) / 4 * 4

/-- What is pushed ends in the stack page, or is refused. -/
theorem Stacked.push (lay : L.Sound) (good : Good L (s.free + R)) (stacked : Stacked L s s1 d R top)
    (stack : pageAt s1.mem d (top - 1) = some m) (low : PGSIZE * (top - 1) ≤ sp)
    (high : sp ≤ PGSIZE * top) (aligned : sp % 4 = 0) (more : bytes ≠ [])
    (short : bytes.length ≤ KERNBASE) (fits : pushSize bytes.length ≤ sp ∨ allowed.waits) :
    Spec allowed (copyout d (sub32 sp bytes.length / 4 * 4) bytes) s1 fun r s' =>
      r = 0 ∧ PGSIZE * (top - 1) + pushSize bytes.length ≤ sp ∧
          s' = s1.putPage m (overwrite (s1.mem m) ((sp - pushSize bytes.length) % PGSIZE) bytes) ∨
        r = -1 ∧ Image L s s' d R := by
  have small := UPAGES_lt
  have less := stacked.top_lt
  have some : 0 < bytes.length := List.length_pos_iff.mpr more
  by_cases wraps : sp < bytes.length
  · -- The address is in the upper half, where nothing is for the user.
    have upper : UPAGES ≤ sub32 sp bytes.length / 4 * 4 / PGSIZE ∧ sub32 sp bytes.length / 4 * 4 <
      2 ^ 32 := by
      simp only [sub32, PGSIZE, UPAGES, KERNBASE] at *
      omega
    have waits : allowed.waits := by
      refine fits.resolve_left ?_
      unfold pushSize
      omega
    refine Spec.mono (copyout_refused upper.2 (stacked.above lay upper.1 ?_)
      (fun _ => waits) more) ?_
    · simp only [PGSIZE] at *
      omega
    · grind [image]
  · have address : sub32 sp bytes.length / 4 * 4 = sp - pushSize bytes.length := by
      simp only [sub32, pushSize, PGSIZE, KERNBASE] at *
      omega
    rw [address]
    by_cases inside : PGSIZE * (top - 1) + pushSize bytes.length ≤ sp
    · obtain ⟨_, _, user⟩ := stacked.stack
      have page : (sp - pushSize bytes.length) / PGSIZE = top - 1 := by
        simp only [pushSize, PGSIZE] at *
        omega
      refine Spec.mono (copyout_page (by omega) user stack page ?_ more) ?_
      · simp only [pushSize, PGSIZE] at *
        omega
      · grind
    · have guard : (sp - pushSize bytes.length) / PGSIZE ≤ top - 2 ∧
          PGSIZE * (top - 2) < sp - pushSize bytes.length + bytes.length := by
        simp only [pushSize, PGSIZE] at *
        omega
      refine Spec.mono (copyout_loop (stacked.image.good good) (Nat.le_of_lt less) stacked.mapped ?_
        (Nat.le_refl _)) ?_
      · simp only [pushSize, PGSIZE] at *
        omega
      · rintro r s' ⟨wrote, failed | ⟨_, users⟩⟩
        · exact Or.inr ⟨failed, stacked.image.moved wrote.moved (Nat.le_of_lt less)⟩
        · exact absurd (users _ guard.1 guard.2 more) stacked.guarded

end Push

section Strings

variable {bytes src : List UInt8} {sp m x : Nat}

/-- The byte at a user address. -/
def userByte (mem : Nat → Block) (d va : Nat) : Option UInt8 :=
  (userPage mem d (va / PGSIZE)).map fun page => page (va % PGSIZE)

/-- These bytes are at the address and behind it. -/
def BytesAt (mem : Nat → Block) (d va : Nat) (bytes : List UInt8) : Prop :=
  ∀ k < bytes.length, userByte mem d (va + k) = some (bytes.getD k 0)

/-- What a write to one page of the user does to the bytes of the user. -/
theorem userByte_put (good : Good L (s.free + space s.mem d + R)) (within : b < UPAGES)
    (here : pageAt s.mem d b = some m) (start : va / PGSIZE = b)
    (fits : va % PGSIZE + src.length ≤ PGSIZE) (user : x < KERNBASE) :
    userByte (s.putPage m (overwrite (s.mem m) (va % PGSIZE) src)).mem d x =
      if va ≤ x ∧ x < va + src.length then some (src.getD (x - va) 0) else userByte s.mem d x := by
  have wrote := good.putLeaf within here (overwrite (s.mem m) (va % PGSIZE) src)
  have page : x / PGSIZE < UPAGES := by grind
  unfold userByte
  by_cases same : x / PGSIZE = b
  · have new : userPage (s.putPage m (overwrite (s.mem m) (va % PGSIZE) src)).mem d b =
        some (overwrite (s.mem m) (va % PGSIZE) src) := by
      rw [userPage, wrote.pageAt (within.trans UPAGES_lt), here, Option.map_some]
      exact congrArg some (Function.update_self _ _ _)
    have old : userPage s.mem d b = some (s.mem m) := by rw [userPage, here, Option.map_some]
    rw [same, new, old, Option.map_some, Option.map_some]
    by_cases inside : va ≤ x ∧ x < va + src.length
    · have shift : x % PGSIZE - va % PGSIZE = x - va := by
        simp only [PGSIZE] at *
        omega
      rw [if_pos inside, Fs.overwrite_inside _ _ _ _ (by simp only [PGSIZE] at *; omega) (by omega),
        shift]
    · rw [if_neg inside, Fs.overwrite_outside _ _ _ _ (by simp only [PGSIZE] at *; omega)]
  · rw [if_neg (by simp only [PGSIZE] at *; omega), wrote.moved.userPage page (by omega)]

theorem BytesAt.put (good : Good L (s.free + space s.mem d + R)) (within : b < UPAGES)
    (here : pageAt s.mem d b = some m) (start : va / PGSIZE = b)
    (fits : va % PGSIZE + src.length ≤ PGSIZE) (user : x + bytes.length ≤ KERNBASE)
    (apart : x + bytes.length ≤ va ∨ va + src.length ≤ x) (there : BytesAt s.mem d x bytes) :
    BytesAt (s.putPage m (overwrite (s.mem m) (va % PGSIZE) src)).mem d x bytes := by
  intro k less
  rw [userByte_put good within here start fits (by omega), if_neg (by omega)]
  exact there k less

theorem bytesAt_put (good : Good L (s.free + space s.mem d + R)) (within : b < UPAGES)
    (here : pageAt s.mem d b = some m) (start : va / PGSIZE = b)
    (fits : va % PGSIZE + src.length ≤ PGSIZE) :
    BytesAt (s.putPage m (overwrite (s.mem m) (va % PGSIZE) src)).mem d va src := by
  intro k less
  rw [userByte_put good within here start fits
    (by simp only [PGSIZE, UPAGES, KERNBASE] at *; omega), if_pos (by omega),
    Nat.add_sub_cancel_left]

/-- Strings and where they are, each below the one before it, down to the stack pointer. -/
structure Pushed (mem : Nat → Block) (d top sp : Nat) (placed : List (CStr × Nat)) : Prop where
  low : PGSIZE * (top - 1) ≤ sp
  high : sp ≤ PGSIZE * top
  aligned : sp % 4 = 0
  strings : ∀ x ∈ placed, sp ≤ x.2 ∧ x.2 + (x.1.bytes.length + 1) ≤ PGSIZE * top ∧
    BytesAt mem d x.2 (x.1.bytes ++ [0])
  apart : placed.Pairwise fun x y => y.2 + (y.1.bytes.length + 1) ≤ x.2

/-- What pushing leaves: an image to be freed, or one with all the strings. -/
def PushResult (L : Layout) (s s1 : State) (d : Nat) (R : Multiset Nat) (top argc : Nat)
    (placed : List (CStr × Nat)) (argv : List CStr) (result : Option (Nat × List Nat))
    (s' : State) : Prop :=
  match result with
  | none => Image L s s' d R
  | some (sp, ustack) => Stacked L s s' d R top ∧ Wrote s1 s' d R (top - 1) top ∧
      (argc ≤ MAXARG → argc + argv.length ≤ MAXARG) ∧
      ∃ placed', ustack = placed'.map Prod.snd ∧ placed'.map Prod.fst =
      placed.map Prod.fst ++ argv ∧
        Pushed s'.mem d top sp placed'

/-- One more string. -/
theorem Pushed.snoc {placed : List (CStr × Nat)} {arg : CStr} (good : Good L (s.free + R))
    (stacked : Stacked L s s1 d R top) (stack : pageAt s1.mem d (top - 1) = some m)
    (pushed : Pushed s1.mem d top sp placed)
    (room : PGSIZE * (top - 1) + pushSize (arg.bytes.length + 1) ≤ sp) :
    Wrote s1 (s1.putPage m (overwrite (s1.mem m) ((sp - pushSize (arg.bytes.length + 1)) % PGSIZE)
        (arg.bytes ++ [0]))) d R (top - 1) top ∧
      Pushed (s1.putPage m (overwrite (s1.mem m) ((sp - pushSize (arg.bytes.length + 1)) % PGSIZE)
        (arg.bytes ++ [0]))).mem
        d top (sp - pushSize (arg.bytes.length + 1))
          (placed ++ [(arg, sp - pushSize (arg.bytes.length + 1))]) := by
  obtain ⟨low, high, aligned, strings, apart⟩ := pushed
  have two := stacked.two
  have less := stacked.top_lt
  have bound := stacked.bound
  have good1 := stacked.image.good good
  have length : (arg.bytes ++ [0]).length = arg.bytes.length + 1 := by
    rw [List.length_append, List.length_singleton]
  have most : arg.bytes.length + 1 ≤ pushSize (arg.bytes.length + 1) ∧
    pushSize (arg.bytes.length + 1) % 4 = 0 := by
    unfold pushSize
    omega
  generalize pushSize (arg.bytes.length + 1) = size at *
  have start : (sp - size) / PGSIZE = top - 1 := by
    simp only [PGSIZE] at *
    omega
  have fits : (sp - size) % PGSIZE + (arg.bytes ++ [0]).length ≤ PGSIZE := by
    simp only [PGSIZE] at *
    omega
  refine ⟨(good1.putLeaf (by omega) stack _).widen
    (by omega), by omega, by omega, by omega, fun x member => ?_, ?_⟩
  · rcases List.mem_append.mp member with old | new
    · obtain ⟨above, below, there⟩ := strings x old
      refine ⟨by omega, below, there.put good1 (by omega) stack start fits ?_ ?_⟩
      · grind
      · omega
    · rw [List.mem_singleton.mp new]
      exact ⟨Nat.le_refl _, by dsimp only; omega, bytesAt_put good1 (by omega) stack start fits⟩
  · refine List.pairwise_append.mpr ⟨apart, List.pairwise_singleton _ _, fun x old y new => ?_⟩
    rw [List.mem_singleton.mp new]
    have above := (strings x old).1
    dsimp only
    omega

theorem pushArgs_spec {placed : List (CStr × Nat)} {argc : Nat} (argv : List CStr) (lay : L.Sound)
    (good : Good L (s.free + R)) (stacked : Stacked L s s1 d R top)
    (pushed : Pushed s1.mem d top sp placed)
    (fits : (argv.map fun arg => pushSize (arg.bytes.length + 1)).sum ≤ sp ∨ allowed.waits) :
    Spec allowed (pushArgs d argv argc sp (placed.map Prod.snd)) s1 fun r s' =>
      PushResult L s s1 d R top argc placed argv r s' := by
  induction argv generalizing s1 sp argc placed with
  | nil =>
    exact Spec.pure ⟨stacked, Wrote.refl, fun most => most, placed, rfl,
      (List.append_nil _).symm, pushed⟩
  | cons arg rest ih =>
    rw [pushArgs]
    split
    · exact Spec.pure stacked.image
    obtain ⟨m, stack, _⟩ := stacked.stack
    have length : (arg.bytes ++ [0]).length = arg.bytes.length + 1 := by
      rw [List.length_append, List.length_singleton]
    have room : pushSize (arg.bytes ++ [0]).length ≤ sp ∨ allowed.waits := by grind
    have push := stacked.push lay good stack pushed.low pushed.high pushed.aligned
      (List.append_ne_nil_of_right_ne_nil arg.bytes (List.cons_ne_nil 0 []))
      (by rw [length]; exact arg.short) room
    rw [length] at push
    refine Spec.bind push ?_
    rintro r s2 (⟨zero, inside, same⟩ | ⟨failed, image⟩)
    · have address : sub32 sp (arg.bytes.length + 1) / 4 * 4 = sp - pushSize
        (arg.bytes.length + 1) := by
        have aligned := pushed.aligned
        have high := pushed.high
        have bound := stacked.bound
        simp only [sub32, pushSize, PGSIZE, KERNBASE] at *
        omega
      obtain ⟨wrote, pushed2⟩ := pushed.snoc good stacked stack inside
      rw [← same] at wrote pushed2
      rw [zero, if_neg (by decide), address]
      have names : placed.map Prod.snd ++ [sp - pushSize (arg.bytes.length + 1)] =
          (placed ++ [(arg, sp - pushSize (arg.bytes.length + 1))]).map Prod.snd := by
        rw [List.map_append]
        rfl
      rw [names]
      have left : (rest.map fun arg => pushSize (arg.bytes.length + 1)).sum ≤ sp - pushSize
          (arg.bytes.length + 1) ∨ allowed.waits := by
        grind
      refine Spec.mono (ih (stacked.wrote wrote (Nat.le_of_lt stacked.top_lt)) pushed2 left) ?_
      intro r s' behind
      cases r with
      | none => exact behind
      | some pair =>
        obtain ⟨stacked', wrote', count, placed', pointers, strings, pushed'⟩ := behind
        refine ⟨stacked', wrote.trans wrote', fun most => ?_, placed', pointers, ?_, pushed'⟩
        · rw [List.length_cons]
          omega
        · grind
    · rw [failed, if_pos (by decide)]
      exact Spec.pure image

end Strings

section Words

variable {bytes more : List UInt8} {sp esp v : Nat} {mem : Nat → Block}

/-- The `uint` at a user address. -/
def userWord (mem : Nat → Block) (d va : Nat) : Option Nat := do
  let b0 ← userByte mem d va
  let b1 ← userByte mem d (va + 1)
  let b2 ← userByte mem d (va + 2)
  let b3 ← userByte mem d (va + 3)
  return b0.toNat + 2 ^ 8 * b1.toNat + 2 ^ 16 * b2.toNat + 2 ^ 24 * b3.toNat

theorem length_bytes32 (v : Nat) : (bytes32 v).length = 4 := rfl

theorem userWord_bytes (fits : v < 2 ^ 32) (here : BytesAt mem d va (bytes32 v)) :
    userWord mem d va = some v := by
  have byte : ∀ k < 4, userByte mem d (va + k) = some ((bytes32 v).getD k 0) := here
  have first := byte 0 (by decide)
  rw [Nat.add_zero] at first
  rw [userWord, first, byte 1 (by decide), byte 2 (by decide), byte 3 (by decide)]
  simp only [bytes32, List.getD_cons_zero, List.getD_cons_succ, UInt8.toNat_ofNat',
    Option.bind_eq_bind, Option.bind_some, Option.pure_def, Option.some.injEq]
  omega

theorem BytesAt.append (here : BytesAt mem d va (bytes ++ more)) :
    BytesAt mem d va bytes ∧ BytesAt mem d (va + bytes.length) more := by
  unfold BytesAt at here
  rw [List.length_append] at here
  refine ⟨fun k less => ?_, fun k less => ?_⟩
  · rw [here k (by omega), List.getD_append _ _ _ _ less]
  · rw [Nat.add_assoc, here _ (by omega), List.getD_append_right _ _ _ _ (Nat.le_add_right _ _),
      Nat.add_sub_cancel_left]

/-- The words are one behind the other. -/
theorem userWord_flatMap (words : List Nat) (fits : ∀ v ∈ words, v < 2 ^ 32)
    (here : BytesAt mem d va (words.flatMap bytes32)) {i : Nat} (less : i < words.length) :
    userWord mem d (va + 4 * i) = some (words.getD i 0) := by
  induction words generalizing va i with
  | nil => exact absurd less (Nat.not_lt_zero i)
  | cons v rest ih =>
    have here := here.append
    rw [length_bytes32] at here
    cases i with
    | zero => exact userWord_bytes (fits v List.mem_cons_self) here.1
    | succ i =>
      have behind := ih (fun u member => fits u (List.mem_cons_of_mem v member)) here.2
        (Nat.lt_of_succ_lt_succ less)
      rw [List.getD_cons_succ, ← behind]
      congr 1
      omega

theorem length_flatMap_bytes32 (words : List Nat) :
    (words.flatMap bytes32).length = 4 * words.length := by
  induction words with
  | nil => rfl
  | cons v rest ih =>
    rw [List.flatMap_cons, List.length_append, ih, length_bytes32, List.length_cons]
    omega

end Words

end Xv6.Vm
