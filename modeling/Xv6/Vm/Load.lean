import Xv6.Vm.Program

/- How `exec` builds the image of the program: what is in each page, for any file system whose reads
answer as `Q` says. -/
namespace Xv6.Vm

open Exec hiding panic
open Contents
open Fs (Block get32 set32 overwrite Proghdr ELF_PROG_LOAD PROGHDRSIZE uintAt)

variable {φ ι : Type} {files : Files φ ι} {ip : ι} {L : Layout} {allowed : Stops}
  {s s' s1 s2 s3 : State} {d n a b lo hi mid sz : Nat} {R : Multiset Nat} {page : Block}

section Write

/-- Only the contents of the user pages from `lo` to `hi` changed. -/
structure Wrote (s s' : State) (d : Nat) (R : Multiset Nat) (lo hi : Nat) : Prop where
  moved : Moved s s' d R lo hi
  entries : ∀ b < 2 ^ 20, entryAt s'.mem d b = entryAt s.mem d b

theorem Wrote.refl : Wrote s s d R lo hi := ⟨Moved.refl, fun _ _ => rfl⟩

theorem Wrote.widen {lo' hi' : Nat} (wrote : Wrote s s' d R lo hi)
    (less : ∀ b, b < lo' ∨ hi' ≤ b → b < lo ∨ hi ≤ b) :
    Wrote s s' d R lo' hi' := ⟨wrote.moved.widen less, wrote.entries⟩

theorem Wrote.trans (first : Wrote s s1 d R lo hi) (second : Wrote s1 s2 d R lo hi) :
    Wrote s s2 d R lo hi :=
  ⟨first.moved.trans second.moved, fun b within => (second.entries b within).trans
    (first.entries b within)⟩

theorem Wrote.pageAt (wrote : Wrote s s' d R lo hi) (within : b < 2 ^ 20) :
    pageAt s'.mem d b = pageAt s.mem d b := by
  rw [Vm.pageAt, Vm.pageAt, wrote.entries b within]

theorem Good.putLeaf (good : Good L (s.free + space s.mem d + R)) (within : b < UPAGES)
    (here : pageAt s.mem d b = some n) (page : Block) :
    Wrote s (s.putPage n page) d R b (b + 1) := by
  have leaf := page_mem_leaves within here
  have own : Good L (frames s.mem d + leaves s.mem d) := good.left.right
  have others : ∀ m, m ≠ n → (s.putPage n page).mem m = s.mem m := fun m other =>
    Function.update_of_ne other _ _
  have same : ∀ m ∈ frames s.mem d, (s.putPage n page).mem m = s.mem m := by
    intro m member
    refine others m fun equal => own.apart member ?_
    rw [equal]
    exact leaf
  have entries : ∀ c < 2 ^ 20, entryAt (s.putPage n page).mem d c = entryAt s.mem d c := fun c =>
    entryAt_congr same
  refine ⟨⟨?_, fun c inside _ => entries c inside, fun c inside outside m there => ?_,
    fun m member => ?_⟩, entries⟩
  · rw [space_congr same]
    rfl
  · refine others m fun equal => ?_
    rw [equal] at there
    have := contents_inj own.right.once (mem_upages.mpr inside) (mem_upages.mpr within) there here
    omega
  · refine others m fun equal => good.apart
      (Multiset.mem_add.mpr (Or.inr (Multiset.mem_add.mpr (Or.inr leaf)))) ?_
    rw [← equal]
    exact member

theorem setPage_spec (n : Nat) (page : Block) :
    Spec allowed (setPage n page) s fun _ s' => s' = s.putPage n page :=
  Spec.modify rfl

end Write

section Segment

/-- What is known of the answers to the reads of a file. -/
structure Reads (allowed : Stops) (files : Files φ ι) (ip : ι) (I : φ → Prop)
    (Q : Nat → Nat → Int × List UInt8 → Prop) : Prop where
  readi : ∀ f, I f → ∀ off < 2 ^ 32, ∀ n < 2 ^ 32, Spec allowed (files.readi ip off n) f
    fun out f' => I f' ∧ Q off n out

variable {I : φ → Prop} {Q : Nat → Nat → Int × List UInt8 → Prop} {f : φ} {first offset fuel : Nat}

/-- Bytes of the segment in its page `k`. -/
def chunk (sz k : Nat) : Nat := if sz - PGSIZE * k < PGSIZE then sz - PGSIZE * k else PGSIZE

theorem chunk_le (sz k : Nat) : chunk sz k ≤ PGSIZE ∧ chunk sz k ≤ sz - PGSIZE * k := by
  unfold chunk
  split <;> omega

/-- The first `a` pages of the segment are loaded. -/
structure Filled (Q : Nat → Nat → Int × List UInt8 → Prop) (s s' : State) (d : Nat)
    (R : Multiset Nat) (first offset sz a : Nat) : Prop where
  wrote : Wrote s s' d R first (first + a)
  loaded : ∀ k < a, ∃ bytes, Q (add32 offset (PGSIZE * k)) (chunk sz k) (chunk sz k, bytes) ∧
    ∀ n, pageAt s.mem d (first + k) = some n → s'.mem n = overwrite (s.mem n) 0 bytes

theorem Filled.snoc {bytes : List UInt8} (good : Good L (s.free + space s.mem d + R))
    (within : first + a < UPAGES) (filled : Filled Q s s1 d R first offset sz a)
    (here : pageAt s.mem d (first + a) = some n)
    (answer : Q (add32 offset (PGSIZE * a)) (chunk sz a) (chunk sz a, bytes)) :
    Filled Q s (s1.putPage n (overwrite (s1.mem n) 0 bytes)) d R first offset sz (a + 1) := by
  have small := UPAGES_lt
  have here1 : pageAt s1.mem d (first + a) = some n := by
    rw [filled.wrote.pageAt (by omega)]
    exact here
  have put := (filled.wrote.moved.good good).putLeaf within here1 (overwrite (s1.mem n) 0 bytes)
  refine ⟨(filled.wrote.widen (by omega)).trans (put.widen (by omega)), fun k below => ?_⟩
  by_cases last : k = a
  · refine ⟨bytes, by rw [last]; exact answer, fun m there => ?_⟩
    rw [last, here] at there
    cases there
    change Function.update s1.mem n _ n = _
    rw [Function.update_self, filled.wrote.moved.data _ within (by omega) n here]
  · obtain ⟨old, answer', same⟩ := filled.loaded k (by omega)
    refine ⟨old, answer', fun m there => ?_⟩
    have there1 : pageAt s1.mem d (first + k) = some m := by
      rw [filled.wrote.pageAt (by omega)]
      exact there
    rw [put.moved.data (first + k) (by omega) (by omega) m there1]
    exact same m there

/-- The loop of `loaduvm` with the first `a` pages loaded. -/
theorem loaduvm_loop (reads : Reads allowed files ip I Q)
    (good : Good L (s.free + space s.mem d + R)) (inside : first + pagesOf sz ≤ UPAGES)
    (mapped : ∀ b, first ≤ b → b < first + pagesOf sz → entryAt s.mem d b ≠ none) (ready : I f)
    (filled : Filled Q s s1 d R first offset sz a) (low : a ≤ pagesOf sz)
    (enough : pagesOf sz < a + fuel) :
    Spec allowed (loaduvm.loop files ip d (PGSIZE * first) offset sz fuel (PGSIZE * a)) (f, s1)
      fun r x => I x.1 ∧
      (r = 0 ∧ Filled Q s x.2 d R first offset sz (pagesOf sz) ∨
        r = -1 ∧ Wrote s x.2 d R first (first + pagesOf sz)) := by
  have small := UPAGES_lt
  induction fuel generalizing s1 a f with
  | zero => omega
  | succ fuel ih =>
    rw [loaduvm.loop]
    by_cases more : a < pagesOf sz
    · rw [if_pos ((lt_iff_lt_pagesOf sz a).mpr more)]
      have address : add32 (PGSIZE * first) (PGSIZE * a) = PGSIZE * (first + a) := by
        simp only [add32, PGSIZE, UPAGES, KERNBASE] at *
        omega
      have index : PGSIZE * (first + a) / PGSIZE = first + a := Nat.mul_div_cancel_left _
        (by decide)
      obtain ⟨w, here⟩ := Option.ne_none_iff_exists'.mp (mapped (first + a) (by omega) (by omega))
      have page : pageAt s.mem d (first + a) = some (pageOf w) := by
        rw [pageAt, here, Option.map_some]
      rw [address]
      have walk : Spec allowed (walkpgdir d (PGSIZE * (first + a)) false) (f, s1).2 _ :=
        walkpgdir_reads d (by simp only [PGSIZE, UPAGES, KERNBASE] at *; omega)
      refine Spec.bind walk.onSecond ?_
      rintro r ⟨f1, s2⟩ ⟨⟨same, found⟩, still⟩
      dsimp only at same still found
      rw [index, filled.wrote.entries _ (by omega), here] at found
      obtain ⟨t, table, rfl, word, set⟩ := found
      rw [same, still]
      refine Spec.bind_get ?_
      dsimp only
      rw [word]
      have part : chunk sz a < 2 ^ 32 := Nat.lt_of_le_of_lt (chunk_le sz a).1 (by decide)
      refine Spec.bind (reads.readi f ready _ (Nat.mod_lt _ (by decide)) _ part).onFirst ?_
      rintro ⟨r, bytes⟩ ⟨f2, s3⟩ ⟨⟨ready2, answer⟩, same2⟩
      dsimp only at ready2 answer same2 ⊢
      rw [same2]
      have here1 : pageAt s1.mem d (first + a) = some (pageOf w) := by
        rw [filled.wrote.pageAt (by omega)]
        exact page
      refine Spec.bind (setPage_spec (pageOf w) _).onSecond ?_
      rintro _ ⟨f3, s4⟩ ⟨written, still2⟩
      dsimp only at written still2
      rw [written, still2]
      change Spec allowed (if r ≠ (chunk sz a : Int) then _ else _) _ _
      split
      · have put := (filled.wrote.moved.good good).putLeaf (by omega) here1
          (overwrite (s1.mem (pageOf w)) 0 bytes)
        exact Spec.pure ⟨ready2, Or.inr ⟨rfl, (filled.wrote.widen (by omega)).trans
          (put.widen (by omega))⟩⟩
      · rename_i complete
        have next : add32 (PGSIZE * a) PGSIZE = PGSIZE * (a + 1) := by
          simp only [add32, PGSIZE, UPAGES, KERNBASE] at *
          omega
        rw [next]
        rw [Decidable.not_not.mp complete] at answer
        exact ih ready2 (filled.snoc good (by omega) page answer) more (by omega)
    · grind [lt_iff_lt_pagesOf, pagesOf, Spec.pure]

theorem loaduvm_spec (reads : Reads allowed files ip I Q)
    (good : Good L (s.free + space s.mem d + R)) (inside : first + pagesOf sz ≤ UPAGES)
    (mapped : ∀ b, first ≤ b → b < first + pagesOf sz → entryAt s.mem d b ≠ none) (ready : I f) :
    Spec allowed (loaduvm files ip d (PGSIZE * first) offset sz) (f, s) fun r x => I x.1 ∧
      (r = 0 ∧ Filled Q s x.2 d R first offset sz (pagesOf sz) ∨
        r = -1 ∧ Wrote s x.2 d R first (first + pagesOf sz)) := by
  have small := UPAGES_lt
  unfold loaduvm
  rw [if_neg (by rw [Nat.mul_mod_right]; decide)]
  exact loaduvm_loop reads good inside mapped ready ⟨Wrote.refl, fun k below => by omega⟩
    (Nat.zero_le _) (by omega)

theorem Filled.userPage (filled : Filled Q s s' d R first offset sz a) {k : Nat} (below : k < a)
    (within : first + k < UPAGES) (here : userPage s.mem d (first + k) = some page) :
    ∃ bytes, Q (add32 offset (PGSIZE * k)) (chunk sz k) (chunk sz k, bytes) ∧
      userPage s'.mem d (first + k) = some (overwrite page 0 bytes) := by
  obtain ⟨bytes, answer, same⟩ := filled.loaded k below
  obtain ⟨n, there, old⟩ := Option.map_eq_some_iff.mp here
  refine ⟨bytes, answer, ?_⟩
  rw [Vm.userPage, filled.wrote.pageAt (within.trans UPAGES_lt), there, Option.map_some,
    same n there, old]

end Segment

section Image

variable {I : φ → Prop} {Q : Nat → Nat → Int × List UInt8 → Prop} {f : φ} {ph : Proghdr}
  {D : List Proghdr}

/-- The pages of a segment. -/
def segFirst (ph : Proghdr) : Nat := ph.vaddr / PGSIZE
def segPast (ph : Proghdr) : Nat := pagesOf (ph.vaddr + ph.memsz)
def InSegment (ph : Proghdr) (b : Nat) : Prop := segFirst ph ≤ b ∧ b < segPast ph

/-- No page is in two of the segments. -/
def Apart (segments : List Proghdr) : Prop :=
  segments.Pairwise fun ph ph' => ∀ b, InSegment ph b → ¬ InSegment ph' b

/-- Page `b` has its part of the segment, and is zero behind that. -/
def SegmentPage (Q : Nat → Nat → Int × List UInt8 → Prop) (s : State) (d : Nat) (ph : Proghdr)
    (b : Nat) : Prop :=
  if PGSIZE * (b - segFirst ph) < ph.filesz then
    ∃ bytes, Q (add32 ph.off (PGSIZE * (b - segFirst ph))) (chunk ph.filesz (b - segFirst ph))
        (chunk ph.filesz (b - segFirst ph), bytes) ∧
      userPage s.mem d b = some (overwrite (fun _ => 0) 0 bytes)
  else userPage s.mem d b = some fun _ => 0

/-- A new address space whose user part is `sz` bytes that the user may use. -/
structure Loading (L : Layout) (s s' : State) (d : Nat) (R : Multiset Nat) (sz : Nat) : Prop where
  image : Image L s s' d R
  size : sz < KERNBASE
  user : ∀ b < pagesOf sz, ∃ n, entryAt s'.mem d b = some (mapWord n (PTE_W ||| PTE_U))
  rest : ∀ b, pagesOf sz ≤ b → b < UPAGES → entryAt s'.mem d b = none

/-- The segments that are loaded so far, if they are apart. -/
structure Holds (Q : Nat → Nat → Int × List UInt8 → Prop) (s : State) (d sz : Nat)
    (D : List Proghdr) : Prop where
  valid : ∀ ph ∈ D, ph.vaddr % PGSIZE = 0 ∧ ph.filesz ≤ ph.memsz ∧ ph.vaddr + ph.memsz ≤ sz
  pages : Apart D → ∀ ph ∈ D, ∀ b, InSegment ph b → SegmentPage Q s d ph b
  zero : Apart D → ∀ b < pagesOf sz, (∀ ph ∈ D, ¬ InSegment ph b) → userPage s.mem d b =
    some fun _ => 0

theorem pagesOf_max (sz sz' : Nat) : pagesOf (max sz sz') = max (pagesOf sz) (pagesOf sz') := by
  simp only [pagesOf, PGSIZE]
  omega

theorem Loading.grown (loading : Loading L s s1 d R sz) {new : Nat} (below : new < KERNBASE)
    (grown : Grown s1 s2 d R (pagesOf sz) (pagesOf new)) : Loading L s s2 d R (max sz new) := by
  have top := pagesOf_le (Nat.le_of_lt below)
  have top' := pagesOf_le (Nat.le_of_lt loading.size)
  have small := UPAGES_lt
  have size := loading.size
  refine ⟨loading.image.moved grown.moved top, by omega, fun b less => ?_, fun b more within => ?_⟩
  · rw [pagesOf_max] at less
    by_cases fresh : pagesOf sz ≤ b
    · obtain ⟨n, here, _⟩ := grown.fresh b fresh (by omega)
      exact ⟨n, here⟩
    · rw [grown.moved.kept b (by omega) (by omega)]
      exact loading.user b (by omega)
  · rw [pagesOf_max] at more
    rw [grown.moved.kept b (by omega) (by omega)]
    exact loading.rest b (by omega) within

theorem Loading.wrote (loading : Loading L s s1 d R sz) (wrote : Wrote s1 s2 d R lo hi)
    (user : hi ≤ UPAGES) :
    Loading L s s2 d R sz := by
  have small := UPAGES_lt
  have top := pagesOf_le (Nat.le_of_lt loading.size)
  refine ⟨loading.image.moved wrote.moved user, loading.size, fun b less => ?_,
    fun b more within => ?_⟩
  · rw [wrote.entries b (by omega)]
    exact loading.user b less
  · rw [wrote.entries b (by omega)]
    exact loading.rest b more within

theorem Grown.userPage (grown : Grown s s' d R lo hi) (low : lo ≤ b) (high : b < hi) :
    userPage s'.mem d b = some fun _ => 0 := by
  obtain ⟨n, here, zero⟩ := grown.fresh b low high
  rw [Vm.userPage, pageAt, here, Option.map_some, Option.map_some,
    pageOf_mapWord n (by decide), zero]

theorem segmentPage_congr (same : userPage s'.mem d b = userPage s.mem d b)
    (here : SegmentPage Q s d ph b) :
    SegmentPage Q s' d ph b := by
  grind [SegmentPage]

theorem segPast_eq (aligned : ph.vaddr % PGSIZE = 0) :
    segPast ph = segFirst ph + pagesOf ph.memsz := by
  simp only [segPast, segFirst, pagesOf, PGSIZE] at *
  omega

/-- One more segment. Its pages are zero before they are loaded, because no other segment has
them. -/
theorem Holds.snoc (loading : Loading L s s1 d R sz) (holds : Holds Q s1 d sz D)
    (aligned : ph.vaddr % PGSIZE = 0) (sizes : ph.filesz ≤ ph.memsz)
    (below : ph.vaddr + ph.memsz < KERNBASE) (grown : Grown s1 s2 d R (pagesOf sz) (segPast ph))
    (filled : Filled Q s2 s3 d R (segFirst ph) ph.off ph.filesz (pagesOf ph.filesz)) :
    Holds Q s3 d (max sz (ph.vaddr + ph.memsz)) (D ++ [ph]) := by
  have past := segPast_eq aligned
  have part := pagesOf_mono sizes
  have top : segPast ph ≤ UPAGES := pagesOf_le (Nat.le_of_lt below)
  have top' := pagesOf_le (Nat.le_of_lt loading.size)
  have carry : ∀ b < pagesOf sz, ¬ InSegment ph b → userPage s3.mem d b = userPage s1.mem d b := by
    intro b less outside
    unfold InSegment at outside
    rw [filled.wrote.moved.userPage (by omega) (by omega), grown.moved.userPage (by omega)
      (by omega)]
  have split : Apart (D ++ [ph]) → Apart D ∧ ∀ q ∈ D, ∀ b, InSegment q b → ¬ InSegment ph b := by
    intro apart
    obtain ⟨first, _, between⟩ := List.pairwise_append.mp apart
    exact ⟨first, fun q member => between q member ph List.mem_cons_self⟩
  refine ⟨fun q member => ?_, fun apart q member b inside => ?_, fun apart b less outside => ?_⟩
  · rcases List.mem_append.mp member with old | new
    · obtain ⟨start, fits, size⟩ := holds.valid q old
      exact ⟨start, fits, by omega⟩
    · grind
  · obtain ⟨first, between⟩ := split apart
    rcases List.mem_append.mp member with old | new
    · have reach : b < pagesOf sz := Nat.lt_of_lt_of_le inside.2
        (pagesOf_mono (holds.valid q old).2.2)
      exact segmentPage_congr (carry b reach (between q old b inside))
        (holds.pages first q old b inside)
    · rw [List.mem_singleton.mp new] at inside ⊢
      obtain ⟨low, high⟩ := inside
      have blank : userPage s2.mem d b = some fun _ => 0 := by
        by_cases old : b < pagesOf sz
        · rw [grown.moved.userPage (by omega) (by omega)]
          exact holds.zero first b old fun q member inside => between q member b inside ⟨low, high⟩
        · exact grown.userPage (by omega) high
      unfold SegmentPage
      split
      · rename_i loaded
        have page : b - segFirst ph < pagesOf ph.filesz := (lt_iff_lt_pagesOf ph.filesz _).mp loaded
        have position : segFirst ph + (b - segFirst ph) = b := by omega
        rw [← position] at blank
        have result := filled.userPage page (by omega) blank
        rw [position] at result
        exact result
      · rename_i behind
        have page := mt (lt_iff_lt_pagesOf ph.filesz (b - segFirst ph)).mpr behind
        rw [filled.wrote.moved.userPage (by omega) (by omega)]
        exact blank
  · obtain ⟨first, _⟩ := split apart
    have other := outside ph (List.mem_append.mpr (Or.inr List.mem_cons_self))
    by_cases old : b < pagesOf sz
    · grind [zero]
    · have most : b < segPast ph := by grind [pagesOf_max, segPast]
      unfold InSegment at other
      rw [filled.wrote.moved.userPage (by omega) (by omega)]
      exact grown.userPage (by omega) most

/-- The program headers, as the reads give them. -/
inductive Headers (Q : Nat → Nat → Int × List UInt8 → Prop) : Nat → Nat → List Proghdr → Prop
  | nil (off : Nat) : Headers Q 0 off []
  | cons {k off : Nat} {bytes : List UInt8} {rest : List Proghdr}
      (read : Q off PROGHDRSIZE (PROGHDRSIZE, bytes))
      (behind : Headers Q k (add32 off PROGHDRSIZE) rest) :
      Headers Q (k + 1) off (Proghdr.ofBytes bytes :: rest)

/-- The segments that are loaded. -/
def loads (headers : List Proghdr) : List Proghdr :=
  headers.filter fun ph => ph.type = ELF_PROG_LOAD

/-- How far they reach, and at least `sz`. -/
def imageSize (sz : Nat) (segments : List Proghdr) : Nat :=
  segments.foldl (fun sz ph => max sz (ph.vaddr + ph.memsz)) sz

theorem uintAt_lt (bytes : List UInt8) (off : Nat) : uintAt bytes off < 2 ^ 32 := by
  have byte := fun k => (bytes.getD k 0).toNat_lt
  have first := byte off
  have second := byte (off + 1)
  have third := byte (off + 2)
  have fourth := byte (off + 2 + 1)
  unfold uintAt Fs.ushortAt
  omega

/-- Without overflow in the end of the segment. -/
theorem segment_end {bytes : List UInt8} (ph : Proghdr) (decoded : ph = Proghdr.ofBytes bytes)
    (order : ¬ add32 ph.vaddr ph.memsz < ph.vaddr) :
    add32 ph.vaddr ph.memsz = ph.vaddr + ph.memsz := by
  have size : ph.memsz < 2 ^ 32 := by
    rw [decoded]
    exact uintAt_lt bytes 20
  unfold add32 at order ⊢
  omega

/-- What `loadProgram` leaves: an image to be freed, or one with all segments. -/
def LoadResult (L : Layout) (Q : Nat → Nat → Int × List UInt8 → Prop) (s : State) (d : Nat)
    (R : Multiset Nat) (D : List Proghdr) (k off sz : Nat) (result : Option Nat) (s' : State) :
    Prop :=
  match result with
  | none => Image L s s' d R
  | some sz' => Loading L s s' d R sz' ∧ ∃ H, Headers Q k off H ∧ sz' = imageSize sz (loads H) ∧
      Holds Q s' d sz' (D ++ loads H)

section Result

variable {k off : Nat} {bytes : List UInt8} {result : Option Nat}
  (read : Q off PROGHDRSIZE (PROGHDRSIZE, bytes))

include read

theorem LoadResult.skip (other : (Proghdr.ofBytes bytes).type ≠ ELF_PROG_LOAD)
    (behind : LoadResult L Q s d R D k (add32 off PROGHDRSIZE) sz result s') :
    LoadResult L Q s d R D (k + 1) off sz result s' := by
  cases result with
  | none => exact behind
  | some sz' =>
    obtain ⟨loading, H, headers, size, holds⟩ := behind
    have same : loads (Proghdr.ofBytes bytes :: H) = loads H := by
      rw [loads, List.filter_cons_of_neg (by simpa using other)]
      rfl
    refine ⟨loading, _, Headers.cons read headers, ?_⟩
    rw [same]
    exact ⟨size, holds⟩

theorem LoadResult.load (segment : (Proghdr.ofBytes bytes).type = ELF_PROG_LOAD)
    (behind : LoadResult L Q s d R (D ++ [Proghdr.ofBytes bytes]) k (add32 off PROGHDRSIZE)
      (max sz ((Proghdr.ofBytes bytes).vaddr + (Proghdr.ofBytes bytes).memsz)) result s') :
    LoadResult L Q s d R D (k + 1) off sz result s' := by
  cases result with
  | none => exact behind
  | some sz' =>
    obtain ⟨loading, H, headers, size, holds⟩ := behind
    have more : loads (Proghdr.ofBytes bytes :: H) = Proghdr.ofBytes bytes :: loads H := by
      rw [loads, List.filter_cons_of_pos (by simpa using segment)]
      rfl
    refine ⟨loading, _, Headers.cons read headers, ?_⟩
    rw [more]
    refine ⟨size, ?_⟩
    rw [List.append_cons]
    exact holds

end Result

theorem loadProgram_spec (lay : L.Fits) (reads : Reads allowed files ip I Q)
    (good : Good L (s.free + R)) (k : Nat) {off : Nat} (start : off < 2 ^ 32) (ready : I f)
    (loading : Loading L s s1 d R sz) (holds : Holds Q s1 d sz D) :
    Spec allowed (loadProgram files ip L d k off sz) (f, s1) fun r x => I x.1 ∧
      LoadResult L Q s d R D k off sz r x.2 := by
  induction k generalizing f s1 off sz D with
  | zero =>
    refine Spec.pure ⟨ready, loading, [], Headers.nil off, rfl, ?_⟩
    rw [loads, List.filter_nil, List.append_nil]
    exact holds
  | succ k ih =>
    refine Spec.bind (reads.readi f ready off start PROGHDRSIZE (by decide)).onFirst ?_
    rintro ⟨r, bytes⟩ ⟨f1, s2⟩ ⟨⟨ready1, answer⟩, same⟩
    dsimp only at ready1 answer same ⊢
    rw [same]
    split
    · exact Spec.pure ⟨ready1, loading.image⟩
    rename_i whole
    rw [Decidable.not_not.mp whole] at answer
    split
    · rename_i other
      refine Spec.mono (ih (Nat.mod_lt _ (by decide)) ready1 loading holds) ?_
      grind [LoadResult.skip]
    rename_i segment
    split
    · exact Spec.pure ⟨ready1, loading.image⟩
    rename_i sizes
    split
    · exact Spec.pure ⟨ready1, loading.image⟩
    rename_i order
    have sum := segment_end _ rfl order
    generalize decoded : Proghdr.ofBytes bytes = ph at *
    rw [sum]
    have alloc : Spec allowed (allocuvm L d sz (ph.vaddr + ph.memsz)) (f1, s1).2 _ :=
      allocuvm_spec lay (loading.image.good good) loading.rest
    refine Spec.bind alloc.onSecond ?_
    rintro new ⟨f2, s3⟩ ⟨either, still⟩
    dsimp only at either still ⊢
    rw [still]
    have user := pagesOf_le (Nat.le_of_lt loading.size)
    rcases either with ⟨rfl, below, grown⟩ | ⟨zero, moved⟩
    · have loading3 := loading.grown below grown
      split
      · exact Spec.pure ⟨ready1, loading3.image⟩
      split
      · exact Spec.pure ⟨ready1, loading3.image⟩
      rename_i aligned
      have aligned := Decidable.not_not.mp aligned
      have position : ph.vaddr = PGSIZE * segFirst ph := by
        simp only [segFirst, PGSIZE] at *
        omega
      have past := segPast_eq aligned
      have part := pagesOf_mono (Nat.le_of_not_lt sizes)
      have top : segPast ph ≤ UPAGES := pagesOf_le (Nat.le_of_lt below)
      have load : Spec allowed (loaduvm files ip d (PGSIZE * segFirst ph) ph.off ph.filesz)
        (f1, s3) _ :=
        loaduvm_spec reads (loading3.image.good good) (by omega) (fun b low high => by
          obtain ⟨n, here⟩ := loading3.user b (by rw [pagesOf_max]; unfold segPast at past; omega)
          rw [here]
          exact Option.some_ne_none _) ready1
      rw [← position] at load
      refine Spec.bind load ?_
      rintro r ⟨f4, s4⟩ ⟨ready4, ⟨rfl, filled⟩ | ⟨rfl, wrote⟩⟩
      · refine Spec.mono (ih (Nat.mod_lt _ (by decide)) ready4
          (loading3.wrote filled.wrote (by omega))
          (holds.snoc loading aligned (Nat.le_of_not_lt sizes) below grown filled)) ?_
        rintro r x ⟨ready', behind⟩
        rw [← decoded] at behind segment
        exact ⟨ready', behind.load answer (Decidable.not_not.mp segment)⟩
      · exact Spec.pure ⟨ready4, loading3.image.moved wrote.moved (by omega)⟩
    · rw [if_pos zero]
      exact Spec.pure ⟨ready1, loading.image.moved moved user⟩

end Image

end Xv6.Vm
