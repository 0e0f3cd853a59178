import Mathlib.Data.Finset.Card
import Mathlib.Data.List.ReduceOption
import Xv6.Bcache.Bio
import Xv6.Lib.Runs

/- The buffer cache never loses an update: whoever reads a block sees what was last
given to it, through whichever buffer, and whatever was recycled in between. -/
namespace Xv6.Bio

open Ring Runs

variable {Data : Type} {b : Fin NBUF} {p dev blockno : Nat} {c : Bcache Data}

/-- `latest` is what a log_write or a bwrite last gave to each block; `touched` marks
the buffers modified since. -/
structure Ghost (Data : Type) where
  latest : Nat → Data
  touched : Fin NBUF → Bool

/-- The buffer's data become its block's. -/
def Ghost.give (g : Ghost Data) (m : Machine Data) (b : Fin NBUF) : Ghost Data where
  latest := Function.update g.latest (m.cache.buf b).blockno (m.cache.buf b).data
  touched := Function.update g.touched b false

@[simp, grind =] theorem give_latest (g : Ghost Data) (m : Machine Data) (b : Fin NBUF) (n : Nat) :
    (g.give m b).latest n =
      if n = (m.cache.buf b).blockno then (m.cache.buf b).data else g.latest n := by
  simp only [Ghost.give, Function.update_apply]

@[simp, grind =] theorem give_touched (g : Ghost Data) (m : Machine Data) (b i : Fin NBUF) :
    (g.give m b).touched i = if i = b then false else g.touched i := by
  simp only [Ghost.give, Function.update_apply]

def Ghost.step (g : Ghost Data) (m : Machine Data) : Event Data → Ghost Data
  | .modify _ b _ => { g with touched := Function.update g.touched b true }
  | .absorb p =>
    match m.pc p with
    | .logging b => g.give m b
    | _ => g
  | .bwrite _ b => g.give m b
  | _ => g

def track (state : Machine Data × Ghost Data) (event : Event Data) :
    Option (Machine Data × Ghost Data) :=
  (step state.1 event).toOption.map fun next => (next, state.2.step state.1 event)

/-- How the kernel uses the cache: on ROOTDEV, `log_write` by the process that holds the
buffer, and every modification log_written or bwritten before the buffer is released. -/
def Disciplined (state : Machine Data × Ghost Data) : Event Data → Prop
  | .bget _ dev _ => dev = ROOTDEV
  | .logWrite p b => (state.1.cache.buf b).lock = some p
  | .releasesleep _ b => state.2.touched b = false
  | _ => True

instance (state : Machine Data × Ghost Data) (event : Event Data) :
    Decidable (Disciplined state event) :=
  match event with
  | .bget _ dev _ => inferInstanceAs (Decidable (dev = ROOTDEV))
  | .logWrite p b => inferInstanceAs (Decidable ((state.1.cache.buf b).lock = some p))
  | .releasesleep _ b => inferInstanceAs (Decidable (state.2.touched b = false))
  | .acquiresleep _ | .bread _ | .modify _ _ _ | .absorb _ | .bwrite _ _ | .brelse _
  | .beginOp _ | .endOp _ | .commit _ | .finish _ => isTrue trivial

/-- The process counts in `refcnt` without holding the sleep-lock. -/
def Pc.WaitsOn (b : Fin NBUF) : Pc → Prop
  | .got _ _ here | .released here => here = b
  | _ => False

/-- `n` processes wait on the buffer. -/
def Waiting (pc : Nat → Pc) (b : Fin NBUF) (n : Nat) : Prop :=
  ∃ processes : Finset Nat, (∀ p, p ∈ processes ↔ (pc p).WaitsOn b) ∧ processes.card = n

def lockCount : Option Nat → Nat
  | none => 0
  | some _ => 1

/-- The bookkeeping of the cache. -/
structure Tidy (m : Machine Data) : Prop where
  ring : ∃ order : List (Fin NBUF), order.Perm (List.finRange NBUF) ∧
    IsRing m.cache.links none (order.map some)
  unique : ∀ i j, (m.cache.buf i).dev ≠ 0 → (m.cache.buf i).dev = (m.cache.buf j).dev →
    (m.cache.buf i).blockno = (m.cache.buf j).blockno → i = j
  device : ∀ b, (m.cache.buf b).dev ≠ 0 → (m.cache.buf b).dev = ROOTDEV
  fresh : ∀ b, (m.cache.buf b).dev = 0 →
    (m.cache.buf b).refcnt = 0 ∧ (m.cache.buf b).valid = false
  dirty : ∀ b, (m.cache.buf b).dirty = true → (m.cache.buf b).valid = true
  counted : ∀ b, ∃ n, Waiting m.pc b n ∧
    (m.cache.buf b).refcnt = lockCount (m.cache.buf b).lock + n
  got : ∀ p dev blockno b, m.pc p = .got dev blockno b →
    (m.cache.buf b).dev = dev ∧ (m.cache.buf b).blockno = blockno
  locked : ∀ p dev blockno b, m.pc p = .locked dev blockno b →
    (m.cache.buf b).lock = some p ∧ (m.cache.buf b).dev = dev ∧ (m.cache.buf b).blockno = blockno
  logging : ∀ p b, m.pc p = .logging b → (m.cache.buf b).lock = some p
  held : ∀ p b, (m.cache.buf b).lock = some p →
    (∃ dev blockno, m.pc p = .locked dev blockno b) ∨ (m.cache.buf b).valid = true

/-- The disk has what was last given to the block, or a pinned buffer does. -/
def Settled (m : Machine Data) (g : Ghost Data) (blockno : Nat) : Prop :=
  m.disk blockno = g.latest blockno ∨
    ∃ b, (m.cache.buf b).dev ≠ 0 ∧ (m.cache.buf b).blockno = blockno ∧ (m.cache.buf b).dirty = true

/-- The data in the cache and on the disk. -/
structure Coherent (m : Machine Data) (g : Ghost Data) : Prop where
  data : ∀ b, (m.cache.buf b).valid = true → g.touched b = false →
    (m.cache.buf b).data = g.latest (m.cache.buf b).blockno
  disk : ∀ blockno, Settled m g blockno
  touched : ∀ b, g.touched b = true → ∃ p, (m.cache.buf b).lock = some p ∧
    ∀ dev blockno, m.pc p ≠ .locked dev blockno b

section Waiting

variable {pc : Nat → Pc} {n : Nat} {here : Pc}

theorem Waiting.enter (waiting : Waiting pc b n) (before : ¬ (pc p).WaitsOn b)
    (after : here.WaitsOn b) : Waiting (Function.update pc p here) b (n + 1) := by
  obtain ⟨processes, member, card⟩ := waiting
  refine ⟨insert p processes, fun q => ?_, ?_⟩
  · by_cases same : q = p
    · subst same
      simp [after]
    · simp [same, member]
  · rw [Finset.card_insert_of_notMem (by rw [member]; exact before), card]

theorem Waiting.leave (waiting : Waiting pc b n) (p : Nat) (here : Pc) (before : (pc p).WaitsOn b)
    (after : ¬ here.WaitsOn b) : 0 < n ∧ Waiting (Function.update pc p here) b (n - 1) := by
  obtain ⟨processes, member, card⟩ := waiting
  have inside : p ∈ processes := (member p).mpr before
  refine ⟨card ▸ Finset.card_pos.mpr ⟨p, inside⟩, processes.erase p, fun q => ?_, ?_⟩
  · by_cases same : q = p
    · subst same
      simp [after]
    · simp [same, member]
  · rw [Finset.card_erase_of_mem inside, card]

theorem Waiting.stay (waiting : Waiting pc b n) (same : here.WaitsOn b ↔ (pc p).WaitsOn b) :
    Waiting (Function.update pc p here) b n := by
  obtain ⟨processes, member, card⟩ := waiting
  refine ⟨processes, fun q => ?_, card⟩
  by_cases here : q = p
  · subst here
    simp [same, member]
  · simp [here, member]

theorem Waiting.none (waiting : Waiting pc b 0) (p : Nat) : ¬ (pc p).WaitsOn b := by
  obtain ⟨processes, member, card⟩ := waiting
  grind

end Waiting

variable {m m' : Machine Data} {g : Ghost Data}

/-- An unreferenced buffer is not locked, and no process is on its way to it. -/
theorem Tidy.unreferenced (tidy : Tidy m) (zero : (m.cache.buf b).refcnt = 0) :
    (m.cache.buf b).lock = none ∧ ∀ p, ¬ (m.pc p).WaitsOn b := by
  obtain ⟨n, waiting, count⟩ := tidy.counted b
  have free : lockCount (m.cache.buf b).lock = 0 := by omega
  have nobody : n = 0 := by omega
  subst nobody
  refine ⟨?_, waiting.none⟩
  cases lock : (m.cache.buf b).lock with
  | none => rfl
  | some p =>
    rw [lock] at free
    cases free

/-- The loops of `bget` pass every buffer. -/
theorem Tidy.mem_forward (tidy : Tidy m) (b : Fin NBUF) : b ∈ m.cache.forward := by
  obtain ⟨order, all, ring⟩ := tidy.ring
  have length : order.length = NBUF := by rw [all.length_eq, List.length_finRange]
  rw [Bcache.forward, ring.walk_next (by simp [length]), List.reduceOption_mem_iff]
  exact List.mem_map_of_mem (all.mem_iff.mpr (List.mem_finRange b))

theorem Tidy.boot (zero : Data) (disk : Nat → Data) (disksize : Nat) (log : Log.LogState) :
    Tidy (boot zero disk disksize log) where
  ring := by
    refine ⟨(List.finRange NBUF).reverse, List.reverse_perm _, ?_⟩
    have distinct : ((List.finRange NBUF).map some).Nodup :=
      (List.nodup_map_iff (Option.some_injective _)).mpr (List.nodup_finRange _)
    have ring := (IsRing.alone (⟨id, id⟩ : Links Node) none).foldl_insertAfter distinct (by simp)
    exact ring
  unique := by simp [Bio.boot, binit]
  device := by simp [Bio.boot, binit]
  fresh := by simp [Bio.boot, binit]
  dirty := by simp [Bio.boot, binit]
  counted := fun b => ⟨0, ⟨∅, by simp [Bio.boot, Pc.WaitsOn], rfl⟩, rfl⟩
  got := by simp [Bio.boot]
  locked := by simp [Bio.boot]
  logging := by simp [Bio.boot]
  held := by simp [Bio.boot, binit]

theorem acquiresleep_ok (taken : acquiresleep m p = .ok m') :
    ∃ dev blockno b, m.pc p = .got dev blockno b ∧ (m.cache.buf b).lock = none ∧
      m' = (m.setBuf b { m.cache.buf b with lock := some p }).setPc p (.locked dev blockno b) := by
  unfold acquiresleep at taken
  grind

theorem bread_ok (taken : bread m p = .ok m') : ∃ dev blockno b, m.pc p = .locked dev blockno b ∧
      (((m.cache.buf b).valid = true ∧ m' = m.setPc p .idle) ∨
        ((m.cache.buf b).valid = false ∧ ∃ buf disk,
          iderw m.disk m.disksize p (m.cache.buf b) = .ok (buf, disk) ∧
          m' = ({ m with disk := disk }.setBuf b buf).setPc p .idle)) := by
  unfold bread at taken
  split at taken
  · rename_i dev blockno b standing
    refine ⟨dev, blockno, b, standing, ?_⟩
    split at taken
    · grind
    · rename_i stale
      obtain ⟨⟨buf, disk⟩, request, rfl⟩ := Outcome.map_eq_ok.mp taken
      exact Or.inr ⟨by simpa using stale, buf, disk, request, rfl⟩
  · cases taken

theorem Tidy.bget (tidy : Tidy m) (idle : m.pc p = .idle) (root : dev = ROOTDEV)
    (taken : Bio.bget m.cache dev blockno = .ok (b, c)) :
    Tidy ({ m with cache := c }.setPc p (.got dev blockno b)) := by
  have outside : ∀ i, ¬ (m.pc p).WaitsOn i := by
    intro i
    rw [idle]
    exact id
  have elsewhere : ∀ i, i ≠ b → ∀ n, Waiting m.pc i n →
      Waiting (Function.update m.pc p (.got dev blockno b)) i n := by
    intro i apart n waiting
    exact waiting.stay ⟨fun same => (apart same.symm).elim, fun inside => (outside i inside).elim⟩
  rcases bget_ok taken with ⟨sameDev, sameBlock, rfl⟩ | ⟨missing, zero, clean, rfl⟩
  · obtain ⟨ring, unique, device, fresh, dirty, counted, got, locked, logging, held⟩ := tidy
    refine ⟨ring, ?_, ?_, ?_, ?_, fun i => ?_, ?_, ?_, ?_, ?_⟩
    case refine_5 =>
      obtain ⟨n, waiting, count⟩ := counted i
      by_cases here : i = b
      · subst here
        exact ⟨n + 1, waiting.enter (outside i) rfl, by simp [count, Nat.add_assoc]⟩
      · exact ⟨n, elsewhere i here n waiting, by simp [here, count]⟩
    all_goals grind
  · have nobody := tidy.unreferenced zero
    have absent : ∀ i, ¬ ((m.cache.buf i).dev = dev ∧ (m.cache.buf i).blockno = blockno) :=
      fun i => missing i (tidy.mem_forward i)
    have alone : ∀ q dev blockno, m.pc q ≠ .got dev blockno b :=
      fun q _ _ standing => nobody.2 q (by rw [standing]; rfl)
    obtain ⟨ring, unique, device, fresh, dirty, counted, got, locked, logging, held⟩ := tidy
    refine ⟨ring, ?_, ?_, ?_, ?_, fun i => ?_, ?_, ?_, ?_, ?_⟩
    case refine_5 =>
      obtain ⟨n, waiting, count⟩ := counted i
      by_cases here : i = b
      · subst here
        refine ⟨n + 1, waiting.enter (outside i) rfl, ?_⟩
        grind
      · exact ⟨n, elsewhere i here n waiting, by simp [here, count]⟩
    all_goals grind

theorem Tidy.acquiresleep (tidy : Tidy m)
    (standing : m.pc p = .got dev blockno b) (free : (m.cache.buf b).lock = none) :
    Tidy ((m.setBuf b { m.cache.buf b with lock := some p }).setPc p (.locked dev blockno b)) := by
  obtain ⟨ring, unique, device, fresh, dirty, counted, got, locked, logging, held⟩ := tidy
  refine ⟨ring, ?_, ?_, ?_, ?_, fun i => ?_, ?_, ?_, ?_, ?_⟩
  case refine_5 =>
    obtain ⟨n, waiting, count⟩ := counted i
    by_cases here : i = b
    · subst here
      obtain ⟨positive, left⟩ := waiting.leave p (.locked dev blockno i) (by rw [standing]; rfl) id
      refine ⟨n - 1, left, ?_⟩
      grind [lockCount, setPc_cache, setBuf_cache]
    · refine ⟨n, waiting.stay ?_, by simp [here, count]⟩
      rw [standing]
      exact ⟨False.elim, fun same => here same.symm⟩
  all_goals clear ring counted; grind

/-- A locked buffer is in use, so it holds a block of the disk. -/
theorem Tidy.dev_of_lock (tidy : Tidy m)
    (holder : (m.cache.buf b).lock = some p) : (m.cache.buf b).dev ≠ 0 := by
  intro unused
  obtain ⟨n, -, count⟩ := tidy.counted b
  have zero := (tidy.fresh b unused).1
  rw [holder, zero, lockCount] at count
  omega

/-- The holder changes data and flags of a buffer and leaves it valid. -/
theorem Tidy.fill (tidy : Tidy m)
    (holder : (m.cache.buf b).lock = some p) (data : Data) (dirty' : Bool) (disk : Nat → Data)
    (log : Log.LogState) : Tidy ({ m with disk := disk, log := log }.setBuf b
      { m.cache.buf b with valid := true, dirty := dirty', data := data }) := by
  have used := tidy.dev_of_lock holder
  obtain ⟨ring, unique, device, fresh, dirty, counted, got, locked, logging, held⟩ := tidy
  refine ⟨ring, ?_, ?_, ?_, ?_, fun i => ?_, ?_, ?_, ?_, ?_⟩
  case refine_5 =>
    obtain ⟨n, waiting, count⟩ := counted i
    refine ⟨n, waiting, ?_⟩
    grind
  all_goals grind

/-- A process goes on without a new reference or a new lock. -/
theorem Tidy.setPc (tidy : Tidy m) {here : Pc} (log : Log.LogState)
    (calm : ∀ i, ¬ (m.pc p).WaitsOn i)
    (next : here = .idle ∨ ∃ b, here = .logging b ∧ (m.cache.buf b).lock = some p)
    (seen : ∀ dev blockno b, m.pc p = .locked dev blockno b → (m.cache.buf b).valid = true) :
    Tidy ({ m with log := log }.setPc p here) := by
  have calm' : ∀ i, ¬ here.WaitsOn i := by
    intro i
    rcases next with rfl | ⟨b, rfl, -⟩ <;> exact id
  obtain ⟨ring, unique, device, fresh, dirty, counted, got, locked, logging, held⟩ := tidy
  refine ⟨ring, unique, device, fresh, dirty, fun i => ?_, ?_, ?_, ?_, ?_⟩
  case refine_1 =>
    obtain ⟨n, waiting, count⟩ := counted i
    exact ⟨n, waiting.stay ⟨fun wait => (calm' i wait).elim, fun wait => (calm i wait).elim⟩, count⟩
  all_goals grind

theorem Tidy.releasesleep (tidy : Tidy m) (idle : m.pc p = .idle)
    (holder : (m.cache.buf b).lock = some p) :
    Tidy ((m.setBuf b { m.cache.buf b with lock := none }).setPc p (.released b)) := by
  obtain ⟨ring, unique, device, fresh, dirty, counted, got, locked, logging, held⟩ := tidy
  refine ⟨ring, ?_, ?_, ?_, ?_, fun i => ?_, ?_, ?_, ?_, ?_⟩
  case refine_5 =>
    obtain ⟨n, waiting, count⟩ := counted i
    have outside : ¬ (m.pc p).WaitsOn i := by
      rw [idle]
      exact id
    by_cases here : i = b
    · subst here
      refine ⟨n + 1, waiting.enter outside rfl, ?_⟩
      grind [lockCount, setPc_cache, setBuf_cache]
    · refine ⟨n, waiting.stay ⟨fun same => (here same.symm).elim, fun wait =>
        (outside wait).elim⟩, ?_⟩
      simp [here, count]
  all_goals grind

theorem brelseUnlocked_buf (c : Bcache Data) (b : Fin NBUF) :
    (brelseUnlocked c b).buf = (c.set b { c.buf b with refcnt := (c.buf b).refcnt - 1 }).buf := by
  grind [brelseUnlocked]

/-- Moving a buffer to the front keeps the list whole. -/
theorem brelseUnlocked_ring {order : List (Fin NBUF)}
    (all : order.Perm (List.finRange NBUF)) (ring : IsRing c.links none (order.map some))
    (b : Fin NBUF) : ∃ order' : List (Fin NBUF), order'.Perm (List.finRange NBUF) ∧
      IsRing (brelseUnlocked c b).links none (order'.map some) := by
  unfold brelseUnlocked
  dsimp only
  split
  · obtain ⟨xs, ys, rfl⟩ := List.append_of_mem (all.mem_iff.mpr (List.mem_finRange b))
    refine ⟨b :: (xs ++ ys), List.perm_middle.symm.trans all, ?_⟩
    rw [List.map_append, List.map_cons] at ring
    have removed := ring.remove
    rw [List.map_cons, List.map_append]
    refine removed.insertAfter ?_
    have distinct := ring.distinct
    simp only [List.nodup_cons, List.nodup_append, List.mem_append, List.mem_cons,
      not_or] at distinct ⊢
    refine ⟨by simp, fun inside => ?_, distinct.2.2.1.1⟩
    exact distinct.2.2.2 _ inside _ (Or.inl rfl) rfl
  · exact ⟨order, all, ring⟩

theorem Tidy.brelse (tidy : Tidy m) (standing : m.pc p = .released b) :
    Tidy ({ m with cache := brelseUnlocked m.cache b }.setPc p .idle) := by
  obtain ⟨order, all, ring⟩ := tidy.ring
  obtain ⟨-, unique, device, fresh, dirty, counted, got, locked, logging, held⟩ := tidy
  have buf := brelseUnlocked_buf m.cache b
  refine ⟨brelseUnlocked_ring all ring b, ?_, ?_, ?_, ?_, fun i => ?_, ?_, ?_, ?_, ?_⟩
  case refine_5 =>
    obtain ⟨n, waiting, count⟩ := counted i
    simp only [setPc_cache, buf, set_buf]
    by_cases here : i = b
    · subst here
      obtain ⟨positive, left⟩ := waiting.leave p .idle (by rw [standing]; rfl) id
      refine ⟨n - 1, left, ?_⟩
      simp only [↓reduceIte]
      omega
    · refine ⟨n, waiting.stay ?_, by simp [here, count]⟩
      rw [standing]
      exact ⟨False.elim, fun same => here same.symm⟩
  all_goals
    simp only [setPc_cache, buf, set_buf]
    grind

theorem Settled.frame {g' : Ghost Data} (settled : Settled m g blockno)
    (disk : m'.disk blockno = m.disk blockno) (latest : g'.latest blockno = g.latest blockno)
    (kept : ∀ b, (m.cache.buf b).dev ≠ 0 → (m.cache.buf b).blockno = blockno →
      (m.cache.buf b).dirty = true → (m'.cache.buf b).dev = (m.cache.buf b).dev ∧
        (m'.cache.buf b).blockno = blockno ∧ (m'.cache.buf b).dirty = true) :
    Settled m' g' blockno := by
  rcases settled with same | ⟨b, used, block, dirty⟩
  · exact Or.inl (by rw [disk, latest, same])
  · obtain ⟨device, block', dirty'⟩ := kept b used block dirty
    exact Or.inr ⟨b, by rw [device]; exact used, block', dirty'⟩

theorem Coherent.boot (zero : Data) (disk : Nat → Data) (disksize : Nat) (log : Log.LogState) :
    Coherent (boot zero disk disksize log) ⟨disk, fun _ => false⟩ where
  data := by simp [Bio.boot, binit]
  disk := fun _ => Or.inl rfl
  touched := by simp

theorem Coherent.bget (coherent : Coherent m g)
    (taken : Bio.bget m.cache dev blockno = .ok (b, c)) :
    Coherent ({ m with cache := c }.setPc p (.got dev blockno b)) g := by
  rcases bget_ok taken with ⟨sameDev, sameBlock, rfl⟩ | ⟨missing, zero, clean, rfl⟩
  · obtain ⟨data, disk, touched⟩ := coherent
    exact ⟨by grind, fun n => (disk n).frame rfl rfl (by grind), by grind⟩
  · obtain ⟨data, disk, touched⟩ := coherent
    exact ⟨by grind, fun n => (disk n).frame rfl rfl (by grind), by grind⟩

theorem Coherent.acquiresleep (coherent : Coherent m g) (free : (m.cache.buf b).lock = none) :
    Coherent ((m.setBuf b { m.cache.buf b with lock := some p }).setPc p (.locked dev blockno b))
      g := by
  obtain ⟨data, disk, touched⟩ := coherent
  exact ⟨by grind, fun n => (disk n).frame rfl rfl (by grind), by grind⟩

/-- Nobody has touched the buffer `bread` is about to return. -/
theorem Coherent.returned (coherent : Coherent m g)
    (tidy : Tidy m) (standing : m.pc p = .locked dev blockno b) : g.touched b = false := by
  cases touched : g.touched b with
  | false => rfl
  | true =>
    obtain ⟨q, holder, elsewhere⟩ := coherent.touched b touched
    rw [(tidy.locked p dev blockno b standing).1] at holder
    grind

/-- A block whose buffer is clean is up to date on the disk: no other buffer has it. -/
theorem Coherent.clean (coherent : Coherent m g) (tidy : Tidy m)
    (used : (m.cache.buf b).dev ≠ 0) (clean : (m.cache.buf b).dirty = false) :
    m.disk (m.cache.buf b).blockno = g.latest (m.cache.buf b).blockno := by
  rcases coherent.disk (m.cache.buf b).blockno with same | ⟨i, other, same, dirty⟩
  · exact same
  · have device := (tidy.device i other).trans (tidy.device b used).symm
    grind [Tidy.unique]

theorem Coherent.bread (coherent : Coherent m g) (tidy : Tidy m)
    (taken : Bio.bread m p = .ok m') : Coherent m' g := by
  obtain ⟨dev, blockno, b, standing, ⟨valid, rfl⟩ | ⟨stale, buf, disk', request, rfl⟩⟩ :=
    bread_ok taken
  · obtain ⟨data, disk, touched⟩ := coherent
    exact ⟨data, disk, by grind⟩
  · have clean : (m.cache.buf b).dirty = false := by
      cases dirty : (m.cache.buf b).dirty with
      | false => rfl
      | true => rw [tidy.dirty b dirty] at stale; cases stale
    have here := coherent.clean tidy
      (tidy.dev_of_lock (tidy.locked p dev blockno b standing).1) clean
    obtain ⟨-, ⟨dirty, -, -⟩ | ⟨-, rfl, rfl⟩⟩ := iderw_ok request
    · rw [clean] at dirty
      cases dirty
    · obtain ⟨data, disk, touched⟩ := coherent
      exact ⟨by grind, fun n => (disk n).frame rfl rfl (by grind), by grind⟩

theorem Coherent.modify {new : Data} (coherent : Coherent m g)
    (idle : m.pc p = .idle) (holder : (m.cache.buf b).lock = some p) :
    Coherent (m.setBuf b { m.cache.buf b with data := new })
      { g with touched := Function.update g.touched b true } := by
  obtain ⟨data, disk, touched⟩ := coherent
  exact ⟨by grind [Function.update_apply], fun n => (disk n).frame rfl rfl (by grind),
    by grind [Function.update_apply]⟩

/-- The holder gives the buffer's data to its block, pinned in the cache or written to disk. -/
theorem Coherent.give {disk' : Nat → Data} {dirty' : Bool}
    (coherent : Coherent m g) (tidy : Tidy m) (log : Log.LogState)
    (holder : (m.cache.buf b).lock = some p)
    (kept : ∀ n, n ≠ (m.cache.buf b).blockno → disk' n = m.disk n)
    (given : dirty' = true ∨ disk' (m.cache.buf b).blockno = (m.cache.buf b).data) :
    Coherent ({ m with disk := disk', log := log }.setBuf b
      { m.cache.buf b with valid := true, dirty := dirty' }) (g.give m b) := by
  have used := tidy.dev_of_lock holder
  have unique := tidy.unique
  have device := tidy.device
  have fresh := tidy.fresh
  obtain ⟨data, disk, touched⟩ := coherent
  refine ⟨by grind, fun n => ?_, by grind⟩
  by_cases here : n = (m.cache.buf b).blockno
  · subst here
    rcases given with dirty | written
    · exact Or.inr ⟨b, by simp [used, dirty]⟩
    · exact Or.inl (by simp [written])
  · exact (disk n).frame (kept n here) (by simp [here]) (by grind)

theorem Coherent.setPc {here : Pc} (coherent : Coherent m g) (log : Log.LogState)
    (new : ∀ dev blockno b, here ≠ .locked dev blockno b) :
    Coherent ({ m with log := log }.setPc p here) g := by
  obtain ⟨data, disk, touched⟩ := coherent
  exact ⟨data, disk, by grind⟩

theorem Coherent.releasesleep (coherent : Coherent m g) (untouched : g.touched b = false) :
    Coherent ((m.setBuf b { m.cache.buf b with lock := none }).setPc p (.released b)) g := by
  obtain ⟨data, disk, touched⟩ := coherent
  exact ⟨by grind, fun n => (disk n).frame rfl rfl (by grind), by grind⟩

theorem Coherent.brelse (coherent : Coherent m g) :
    Coherent ({ m with cache := brelseUnlocked m.cache b }.setPc p .idle) g := by
  have buf := brelseUnlocked_buf m.cache b
  obtain ⟨data, disk, touched⟩ := coherent
  refine ⟨?_, fun n => (disk n).frame rfl rfl ?_, ?_⟩
  all_goals
    simp only [setPc_cache, buf, set_buf]
    grind

/-- What holds of the cache and its ghost at every point of a disciplined run. -/
structure Inv (m : Machine Data) (g : Ghost Data) : Prop where
  tidy : Tidy m
  coherent : Coherent m g

theorem calm_of_idle (idle : m.pc p = .idle) (i : Fin NBUF) : ¬ (m.pc p).WaitsOn i := by
  rw [idle]
  exact id

/-- The holder of a buffer that is out of `bread` has read it. -/
theorem Tidy.valid_of_lock (tidy : Tidy m) (holder : (m.cache.buf b).lock = some p)
    (past : ∀ dev blockno, m.pc p ≠ .locked dev blockno b) : (m.cache.buf b).valid = true := by
  rcases tidy.held p b holder with ⟨dev, blockno, locked⟩ | valid
  · exact (past dev blockno locked).elim
  · exact valid

theorem Inv.logCall {event : Log.OpEvent} (inv : Inv m g)
    (taken : m.logCall p event = .ok m') : Inv m' g := by
  unfold Machine.logCall at taken
  split at taken
  · obtain ⟨log, -, rfl⟩ := Outcome.map_eq_ok.mp taken
    obtain ⟨tidy, coherent⟩ := inv
    exact ⟨⟨tidy.ring, tidy.unique, tidy.device, tidy.fresh, tidy.dirty, tidy.counted, tidy.got,
      tidy.locked, tidy.logging, tidy.held⟩, ⟨coherent.data, coherent.disk, coherent.touched⟩⟩
  · cases taken

theorem Inv.bread (inv : Inv m g) (taken : Bio.bread m p = .ok m') : Inv m' g := by
  obtain ⟨tidy, coherent⟩ := inv
  refine ⟨?_, coherent.bread tidy taken⟩
  obtain ⟨dev, blockno, b, standing, ⟨valid, rfl⟩ | ⟨-, buf, disk, request, rfl⟩⟩ := bread_ok taken
  · refine tidy.setPc m.log (fun i => ?_) (Or.inl rfl) fun dev' blockno' b' same => ?_
    · rw [standing]
      exact id
    · grind
  · have holder := (tidy.locked p dev blockno b standing).1
    obtain ⟨-, read⟩ := iderw_ok request
    obtain ⟨dirty, data, rfl⟩ : ∃ dirty data,
        buf = { m.cache.buf b with valid := true, dirty := dirty, data := data } := by
      rcases read with ⟨-, rfl, -⟩ | ⟨-, rfl, -⟩
      · exact ⟨false, (m.cache.buf b).data, rfl⟩
      · exact ⟨(m.cache.buf b).dirty, m.disk (m.cache.buf b).blockno, rfl⟩
    refine (tidy.fill holder data dirty disk m.log).setPc m.log (fun i => ?_) (Or.inl rfl)
      fun dev' blockno' b' same => ?_
    · rw [setBuf_pc, standing]
      exact id
    · grind

theorem Inv.bwrite (inv : Inv m g) (taken : Bio.bwrite m p b = .ok m') : Inv m' (g.give m b) := by
  obtain ⟨tidy, coherent⟩ := inv
  unfold Bio.bwrite at taken
  split at taken
  · split at taken
    · rename_i holder
      obtain ⟨⟨buf, disk⟩, request, rfl⟩ := Outcome.map_eq_ok.mp taken
      obtain ⟨-, ⟨-, rfl, rfl⟩ | ⟨clean, -, -⟩⟩ := iderw_ok request
      · refine ⟨tidy.fill holder (m.cache.buf b).data false _ m.log, ?_⟩
        refine coherent.give tidy m.log holder (fun n apart => ?_) (Or.inr ?_)
        · exact Function.update_of_ne apart _ _
        · exact Function.update_self _ _ _
      · cases clean
    · cases taken
  · cases taken

theorem Inv.absorb (inv : Inv m g) (taken : logWriteAbsorb m p = .ok m') :
    Inv m' (g.step m (.absorb p)) := by
  obtain ⟨tidy, coherent⟩ := inv
  unfold logWriteAbsorb at taken
  split at taken
  · rename_i b standing
    obtain ⟨log, -, rfl⟩ := Outcome.map_eq_ok.mp taken
    have holder := tidy.logging p b standing
    have valid := tidy.valid_of_lock holder (by rw [standing]; exact fun _ _ => Pc.noConfusion)
    have same : ({ m.cache.buf b with dirty := true } : Buf Data) =
        { m.cache.buf b with valid := true, dirty := true } := by
      dsimp only
      rw [valid]
    simp only [Ghost.step, standing]
    rw [same]
    refine ⟨(tidy.fill holder (m.cache.buf b).data true m.disk log).setPc log (fun i => ?_)
      (Or.inl rfl) fun dev blockno b' locked => ?_, ?_⟩
    · rw [setBuf_pc, standing]
      exact id
    · grind
    · exact (coherent.give tidy log holder (fun n _ => rfl) (Or.inl rfl)).setPc log
        fun _ _ _ => Pc.noConfusion
  · cases taken

/-- Every step of a disciplined process keeps the cache tidy and coherent. -/
theorem Inv.step {event : Event Data} (inv : Inv m g) (disciplined : Disciplined (m, g) event)
    (taken : step m event = .ok m') : Inv m' (g.step m event) := by
  cases event with
  | bget p dev blockno =>
    simp only [Bio.step] at taken
    split at taken
    · rename_i idle
      obtain ⟨⟨b, c⟩, got, rfl⟩ := Outcome.map_eq_ok.mp taken
      exact ⟨inv.tidy.bget idle disciplined got, inv.coherent.bget got⟩
    · cases taken
  | acquiresleep p =>
    obtain ⟨dev, blockno, b, standing, free, rfl⟩ := acquiresleep_ok taken
    exact ⟨inv.tidy.acquiresleep standing free, inv.coherent.acquiresleep free⟩
  | bread p => exact inv.bread taken
  | modify p b data =>
    simp only [Bio.step, Bio.modify] at taken
    split at taken
    · rename_i allowed
      obtain ⟨idle, holder⟩ := allowed
      cases taken
      refine ⟨?_, inv.coherent.modify idle holder⟩
      have valid := inv.tidy.valid_of_lock holder (by rw [idle]; exact fun _ _ => Pc.noConfusion)
      have filled := inv.tidy.fill holder data (m.cache.buf b).dirty m.disk m.log
      rw [← valid] at filled
      exact filled
    · cases taken
  | logWrite p b =>
    simp only [Bio.step, Bio.logWriteCheck] at taken
    split at taken
    · rename_i idle
      obtain ⟨log, -, rfl⟩ := Outcome.map_eq_ok.mp taken
      refine ⟨inv.tidy.setPc log (calm_of_idle idle) (Or.inr ⟨b, rfl, disciplined⟩) ?_, ?_⟩
      · grind
      · exact inv.coherent.setPc log fun _ _ _ => Pc.noConfusion
    · cases taken
  | absorb p => exact inv.absorb taken
  | bwrite p b => exact inv.bwrite taken
  | releasesleep p b =>
    simp only [Bio.step, brelseLocked] at taken
    split at taken
    · rename_i idle
      split at taken
      · rename_i holder
        cases taken
        exact ⟨inv.tidy.releasesleep idle holder, inv.coherent.releasesleep disciplined⟩
      · cases taken
    · cases taken
  | brelse p =>
    simp only [Bio.step] at taken
    split at taken
    · rename_i b standing
      cases taken
      exact ⟨inv.tidy.brelse standing, inv.coherent.brelse⟩
    · cases taken
  | beginOp p | endOp p | commit p | finish p => exact inv.logCall taken

/-- A run of disciplined processes from the freshly linked cache. -/
theorem Inv.run {zero : Data} {disk : Nat → Data} {disksize : Nat} {log : Log.LogState}
    {events : List (Event Data)}
    (reached : run track (boot zero disk disksize log, ⟨disk, fun _ => false⟩) events = some (m, g))
    (disciplined : Meets track Disciplined (boot zero disk disksize log, ⟨disk, fun _ => false⟩)
      events) :
    Inv m g := by
  refine @run_preserves _ _ _ _ (fun state => Inv state.1 state.2)
    (fun state event next allowed inv taken => ?_) _ _ _ disciplined reached
    ⟨Tidy.boot zero disk disksize log, Coherent.boot zero disk disksize log⟩
  obtain ⟨m', stepped, rfl⟩ := Option.map_eq_some_iff.mp taken
  exact inv.step allowed (Outcome.toOption_eq_some.mp stepped)

/-- The two loops of `bget` pass each buffer once, in opposite orders. -/
theorem Tidy.directions (tidy : Tidy m) :
    m.cache.forward.Perm (List.finRange NBUF) ∧ m.cache.backward = m.cache.forward.reverse ∧
      IsRing m.cache.links none (m.cache.forward.map some) := by
  obtain ⟨order, all, ring⟩ := tidy.ring
  have length : (order.map some).length ≤ NBUF := by
    rw [List.length_map, all.length_eq, List.length_finRange]
  have forward : m.cache.forward = order := by
    rw [Bcache.forward, ring.walk_next length]
    simp [List.reduceOption, List.filterMap_map]
  have backward : m.cache.backward = order.reverse := by
    rw [Bcache.backward, ring.walk_prev length]
    simp [List.reduceOption, List.filterMap_reverse, List.filterMap_map]
  grind

/-- No step gives a pinned buffer to another block. -/
theorem step_dirty {event : Event Data} (taken : step m event = .ok m')
    (dirty : (m.cache.buf b).dirty = true) :
    (m'.cache.buf b).dev = (m.cache.buf b).dev ∧ (m'.cache.buf b).blockno =
      (m.cache.buf b).blockno := by
  cases event with
  | bget p dev blockno =>
    simp only [Bio.step] at taken
    split at taken
    · obtain ⟨⟨i, c⟩, got, rfl⟩ := Outcome.map_eq_ok.mp taken
      rcases bget_ok got with ⟨-, -, rfl⟩ | ⟨-, -, clean, rfl⟩ <;> grind
    · cases taken
  | acquiresleep p =>
    obtain ⟨dev, blockno, i, -, -, rfl⟩ := acquiresleep_ok taken
    grind
  | bread p =>
    obtain ⟨dev, blockno, i, -, ⟨-, rfl⟩ | ⟨-, buf, disk, request, rfl⟩⟩ := bread_ok taken
    · exact ⟨rfl, rfl⟩
    · obtain ⟨-, ⟨-, rfl, rfl⟩ | ⟨-, rfl, rfl⟩⟩ := iderw_ok request <;> grind
  | modify p i data =>
    simp only [Bio.step, Bio.modify] at taken
    grind
  | logWrite p i =>
    simp only [Bio.step, Bio.logWriteCheck] at taken
    split at taken
    · obtain ⟨log, -, rfl⟩ := Outcome.map_eq_ok.mp taken
      exact ⟨rfl, rfl⟩
    · cases taken
  | absorb p =>
    simp only [Bio.step, Bio.logWriteAbsorb] at taken
    split at taken
    · obtain ⟨log, -, rfl⟩ := Outcome.map_eq_ok.mp taken
      grind
    · cases taken
  | bwrite p i =>
    simp only [Bio.step, Bio.bwrite] at taken
    split at taken
    · split at taken
      · obtain ⟨⟨buf, disk⟩, request, rfl⟩ := Outcome.map_eq_ok.mp taken
        obtain ⟨-, ⟨-, rfl, rfl⟩ | ⟨-, rfl, rfl⟩⟩ := iderw_ok request <;> grind
      · cases taken
    · cases taken
  | releasesleep p i =>
    grind [step, brelseLocked]
  | brelse p =>
    simp only [Bio.step] at taken
    split at taken
    · cases taken
      simp only [setPc_cache, brelseUnlocked_buf, set_buf]
      grind
    · cases taken
  | beginOp p | endOp p | commit p | finish p =>
    simp only [Bio.step, Machine.logCall] at taken
    split at taken
    · obtain ⟨log, -, rfl⟩ := Outcome.map_eq_ok.mp taken
      exact ⟨rfl, rfl⟩
    · cases taken

/-- `bread` returns a locked, valid buffer of the block it was asked for, with the data
last given to that block. -/
theorem Inv.bread_latest (inv : Inv m g)
    (standing : m.pc p = .locked dev blockno b) (taken : Bio.bread m p = .ok m') :
    (m'.cache.buf b).dev = dev ∧ (m'.cache.buf b).blockno = blockno ∧
      (m'.cache.buf b).lock = some p ∧ (m'.cache.buf b).valid = true ∧
      (m'.cache.buf b).data = g.latest blockno := by
  have untouched := inv.coherent.returned inv.tidy standing
  have after := (inv.bread taken).coherent.data b
  obtain ⟨holder, device, block⟩ := inv.tidy.locked p dev blockno b standing
  obtain ⟨dev', blockno', b', same, read⟩ := bread_ok taken
  rw [standing] at same
  cases same
  have kept : (m'.cache.buf b).dev = dev ∧ (m'.cache.buf b).blockno = blockno ∧
      (m'.cache.buf b).lock = some p ∧ (m'.cache.buf b).valid = true := by
    rcases read with ⟨valid, rfl⟩ | ⟨-, buf, disk, request, rfl⟩
    · exact ⟨device, block, holder, valid⟩
    · obtain ⟨-, ⟨-, rfl, rfl⟩ | ⟨-, rfl, rfl⟩⟩ := iderw_ok request <;> simp [device, block, holder]
  have data := after kept.2.2.2 untouched
  rw [kept.2.1] at data
  exact ⟨kept.1, kept.2.1, kept.2.2.1, kept.2.2.2, data⟩

/-- The buffer is referenced or holds data of its block. -/
def Buf.InUse (b : Buf Data) : Prop := 0 < b.refcnt ∨ b.valid = true

theorem Tidy.inUse (tidy : Tidy m) {i : Fin NBUF} (used : (m.cache.buf i).InUse) :
    (m.cache.buf i).dev ≠ 0 := by
  intro unused
  obtain ⟨zero, invalid⟩ := tidy.fresh i unused
  rcases used with referenced | valid
  · omega
  · rw [invalid] at valid
    cases valid

/-- The buffer cache is transparent, at every point of every interleaving of disciplined
processes. -/
theorem buffer_cache_transparent (zero : Data) (disk : Nat → Data) (disksize : Nat)
    (log : Log.LogState) (events : List (Event Data)) (m : Machine Data) (g : Ghost Data)
    (reached : run track (boot zero disk disksize log, ⟨disk, fun _ => false⟩) events = some (m, g))
    (disciplined : Meets track Disciplined (boot zero disk disksize log, ⟨disk, fun _ => false⟩)
      events) :
    (∀ i j, (m.cache.buf i).InUse → (m.cache.buf j).InUse →
      (m.cache.buf i).dev = (m.cache.buf j).dev →
      (m.cache.buf i).blockno = (m.cache.buf j).blockno → i = j) ∧
    (m.cache.forward.Perm (List.finRange NBUF) ∧ m.cache.backward = m.cache.forward.reverse ∧
      IsRing m.cache.links none (m.cache.forward.map some)) ∧
    (∀ event next, step m event = .ok next → ∀ b, (m.cache.buf b).dirty = true →
      (next.cache.buf b).dev = (m.cache.buf b).dev ∧
        (next.cache.buf b).blockno = (m.cache.buf b).blockno) ∧
    (∀ p dev blockno b next, m.pc p = .locked dev blockno b → step m (.bread p) = .ok next →
      (next.cache.buf b).dev = dev ∧ (next.cache.buf b).blockno = blockno ∧
        (next.cache.buf b).lock = some p ∧ (next.cache.buf b).valid = true ∧
        (next.cache.buf b).data = g.latest blockno) := by
  have inv := Inv.run reached disciplined
  refine ⟨fun i j used _ device block => ?_, inv.tidy.directions, fun event next taken b => ?_,
    fun p dev blockno b next standing taken => ?_⟩
  · exact inv.tidy.unique i j (inv.tidy.inUse used) device block
  · exact step_dirty taken
  · exact inv.bread_latest standing taken

/-- One process log_writes block 5 and releases it; another reads it back before the commit. -/
def pinnedRun : List (Event Nat) :=
  [.beginOp 1, .bget 1 ROOTDEV 5, .acquiresleep 1, .bread 1, .bget 2 ROOTDEV 5,
    .modify 1 0 77, .logWrite 1 0, .absorb 1, .releasesleep 1 0, .acquiresleep 2, .brelse 1]

theorem buffer_cache_transparent_pinned : ∃ m g next,
    run track (boot 0 id 10 (Log.initlog 2), ⟨id, fun _ => false⟩) pinnedRun = some (m, g) ∧
      step m (.bread 2) = .ok next ∧ (next.cache.buf 0).data = 77 := by
  have facts : (run track (boot 0 id 10 (Log.initlog 2), ⟨id, fun _ => false⟩) pinnedRun).map
      (fun state => (state.1.pc 2, (step state.1 (.bread 2)).toOption.isSome, state.2.latest 5)) =
        some (.locked ROOTDEV 5 0, true, 77) := by
    decide +kernel
  obtain ⟨⟨m, g⟩, reached, facts⟩ := Option.map_eq_some_iff.mp facts
  obtain ⟨standing, returns, latest⟩ : m.pc 2 = .locked ROOTDEV 5 0 ∧
      (step m (.bread 2)).toOption.isSome = true ∧ g.latest 5 = 77 := by
    simpa only [Prod.mk.injEq] using facts
  obtain ⟨next, stepped⟩ := Option.isSome_iff_exists.mp returns
  have taken := Outcome.toOption_eq_some.mp stepped
  refine ⟨m, g, next, reached, taken, ?_⟩
  rw [← latest]
  exact ((buffer_cache_transparent 0 id 10 (Log.initlog 2) pinnedRun m g reached
    (by decide +kernel)).2.2.2 2 ROOTDEV 5 0 next standing taken).2.2.2.2

end Xv6.Bio
