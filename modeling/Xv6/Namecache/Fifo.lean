import Mathlib.Data.List.Induction
import Xv6.Namecache

/- What the name cache holds after any operations, told by their history: a FIFO of the
names inserted last, less what was invalidated. -/
namespace Xv6.Namecache

open CString

/-- What a lookup asks for. -/
structure Key where
  dev : Nat
  parentInum : Nat
  name : List UInt8

/-- The names are compared over `DIRSIZ` bytes, up to a NUL. -/
def Key.Same (k l : Key) : Prop :=
  k.dev = l.dev ∧ k.parentInum = l.parentInum ∧ strncmp k.name l.name DIRSIZ = 0

instance (k l : Key) : Decidable (k.Same l) := inferInstanceAs (Decidable (_ ∧ _ ∧ _))

inductive Op where
  | add (key : Key) (inum : Nat)
  | lookup (key : Key)
  | invalidate (dev inum : Nat)
  | clear

def perform (c : Cache) : Op → Cache
  | .add key inum => namecacheAdd c key.dev key.parentInum key.name inum
  | .lookup _ => c
  | .invalidate dev inum => namecacheInvalidate c dev inum
  | .clear => namecacheClear c

def cacheAfter (ops : List Op) : Cache := ops.foldl perform namecacheInit

section History

variable (k : Key)

/-- The operation adds a name that has no valid entry, and it is the name `k`. -/
def Op.Inserts (c : Cache) : Op → Prop
  | .add key _ => find c key.dev key.parentInum key.name = none ∧ key.Same k
  | _ => False

/-- The same for a name other than `k`. -/
def Op.insertsOther (c : Cache) : Op → Bool
  | .add key _ => (find c key.dev key.parentInum key.name).isNone && !decide (key.Same k)
  | _ => false

/-- How many of the operations, done from `c` on, insert a name other than `k`. -/
def insertions (c : Cache) : List Op → Nat
  | [] => 0
  | op :: rest => (op.insertsOther k c).toNat + insertions (perform c op) rest

/-- The inum added for `k` when the operation is done, if it was `held` before. -/
def Op.held (held : Nat) : Op → Nat
  | .add key inum => if key.Same k then inum else held
  | _ => held

/-- The inum of the most recent add of `k`. -/
def lastAdd (ops : List Op) : Nat := ops.foldl (Op.held k) 0

/-- `k` was inserted by the last operation of `first`, and that is the latest insertion of `k`
before `rest` ends. Nothing in `rest` clears the cache or invalidates the entry, which is in
`k.parentInum` and holds the inum last added for `k`. -/
structure Since (first rest : List Op) : Prop where
  inserted : ∃ before op, first = before ++ [op] ∧ op.Inserts k (cacheAfter before)
  latest : ∀ before op after, rest = before ++ op :: after →
    ¬ op.Inserts k (cacheAfter (first ++ before))
  uncleared : Op.clear ∉ rest
  unhit : ∀ before inum after, rest = before ++ .invalidate k.dev inum :: after →
    inum ≠ k.parentInum ∧ inum ≠ lastAdd k (first ++ before)

/-- `n` other names were inserted since `k` was, and its entry was not dropped. -/
def Age (ops : List Op) (n : Nat) : Prop :=
  ∃ first rest, ops = first ++ rest ∧ Since k first rest ∧ insertions k (cacheAfter first) rest = n

/-- The operation, after `ops`, does not drop the entry of `k` and does not insert it anew. -/
structure Spares (ops : List Op) (op : Op) : Prop where
  latest : ¬ op.Inserts k (cacheAfter ops)
  uncleared : op ≠ .clear
  unhit : ∀ inum, op = .invalidate k.dev inum → inum ≠ k.parentInum ∧ inum ≠ lastAdd k ops

variable {k}

theorem cacheAfter_snoc (ops : List Op) (op : Op) :
    cacheAfter (ops ++ [op]) = perform (cacheAfter ops) op := by
  simp only [cacheAfter, List.foldl_append, List.foldl_cons, List.foldl_nil]

theorem lastAdd_snoc (ops : List Op) (op : Op) :
    lastAdd k (ops ++ [op]) = op.held k (lastAdd k ops) := by
  simp only [lastAdd, List.foldl_append, List.foldl_cons, List.foldl_nil]

theorem insertions_snoc (c : Cache) (ops : List Op) (op : Op) : insertions k c (ops ++ [op]) =
      insertions k c ops + (op.insertsOther k (ops.foldl perform c)).toNat := by
  induction ops generalizing c with
  | nil => simp [insertions]
  | cons head rest ih =>
    simp only [List.cons_append, insertions, ih, List.foldl_cons]
    omega

theorem insertions_after (first rest : List Op) (op : Op) :
    insertions k (cacheAfter first) (rest ++ [op]) = insertions k (cacheAfter first) rest +
        (op.insertsOther k (cacheAfter (first ++ rest))).toNat := by
  rw [insertions_snoc, cacheAfter, cacheAfter, List.foldl_append]

/-- A split of a list that ends in `last` ends there, or is one of the list before. -/
theorem snoc_eq_append_cons {α : Type} {ops before after : List α} {last op : α}
    (split : ops ++ [last] = before ++ op :: after) :
    (after = [] ∧ ops = before ∧ last = op) ∨ ∃ rest, after = rest ++ [last] ∧ ops = before ++ op ::
      rest := by
  rcases List.eq_nil_or_concat' after with rfl | ⟨rest, final, rfl⟩
  · have both := List.append_inj' split rfl
    exact .inl ⟨rfl, both.1, (List.cons.inj both.2).1⟩
  · have whole : ops ++ [last] = (before ++ op :: rest) ++ [final] := by
      rw [split, List.append_assoc, List.cons_append]
    have both := List.append_inj' whole rfl
    exact .inr ⟨rest, by rw [(List.cons.inj both.2).1], both.1⟩

theorem Since.snoc {first rest : List Op} {op : Op} :
    Since k first (rest ++ [op]) ↔ Since k first rest ∧ Spares k (first ++ rest) op := by
  constructor
  · intro since
    refine ⟨⟨since.inserted, ?_, ?_, ?_⟩, ⟨?_, ?_, ?_⟩⟩
    · grind [latest, List.append_assoc]
    · intro cleared
      exact since.uncleared (List.mem_append_left _ cleared)
    · grind [unhit, List.append_assoc]
    · exact since.latest rest op [] rfl
    · intro cleared
      exact since.uncleared (by simp [cleared])
    · grind [unhit]
  · rintro ⟨since, spares⟩
    refine ⟨since.inserted, ?_, ?_, ?_⟩
    · intro before other after split
      rcases snoc_eq_append_cons split with ⟨_, rfl, rfl⟩ | ⟨left, _, inside⟩
      · exact spares.latest
      · exact since.latest before other left inside
    · intro cleared
      rcases List.mem_append.mp cleared with inside | last
      · exact since.uncleared inside
      · exact spares.uncleared (List.mem_singleton.mp last).symm
    · intro before inum after split
      rcases snoc_eq_append_cons split with ⟨_, rfl, same⟩ | ⟨left, _, inside⟩
      · exact spares.unhit inum same
      · exact since.unhit before inum left inside

/-- How an entry gets its age and how it ages. -/
theorem age_snoc {ops : List Op} {op : Op} {m : Nat} :
    Age k (ops ++ [op]) m ↔ (op.Inserts k (cacheAfter ops) ∧ m = 0) ∨
      ∃ n, Age k ops n ∧ Spares k ops op ∧ m = n + (op.insertsOther k (cacheAfter ops)).toNat := by
  constructor
  · rintro ⟨first, rest, split, since, rfl⟩
    rcases List.eq_nil_or_concat' rest with rfl | ⟨rest, last, rfl⟩
    · obtain ⟨before, inserting, ends, inserts⟩ := since.inserted
      rw [List.append_nil, ends] at split
      obtain ⟨rfl, same⟩ := List.append_inj' split rfl
      cases same
      exact .inl ⟨inserts, rfl⟩
    · rw [← List.append_assoc] at split
      obtain ⟨rfl, same⟩ := List.append_inj' split rfl
      cases same
      obtain ⟨since, spares⟩ := Since.snoc.mp since
      exact .inr ⟨_, ⟨first, rest, rfl, since, rfl⟩, spares, insertions_after first rest op⟩
  · rintro (⟨inserts, rfl⟩ | ⟨n, ⟨first, rest, rfl, since, rfl⟩, spares, rfl⟩)
    · refine ⟨ops ++ [op], [], (List.append_nil _).symm, ⟨⟨ops, op, rfl, inserts⟩, ?_, ?_, ?_⟩, rfl⟩
      · simp
      · exact List.not_mem_nil
      · simp
    · exact ⟨first, rest ++ [op], List.append_assoc _ _ _, Since.snoc.mpr ⟨since, spares⟩,
        insertions_after first rest op⟩

end History

section Slots

variable {c : Cache} {k l m : Key} {i j : Fin NAMECACHE_SIZE}

theorem Key.same_iff : k.Same l ↔ k.dev = l.dev ∧ k.parentInum = l.parentInum ∧
    fieldString DIRSIZ k.name = fieldString DIRSIZ l.name := by
  rw [Key.Same, strncmp_eq_zero]

theorem Key.Same.symm (same : k.Same l) : l.Same k := by
  obtain ⟨dev, parent, name⟩ := Key.same_iff.mp same
  exact Key.same_iff.mpr ⟨dev.symm, parent.symm, name.symm⟩

theorem Key.Same.trans (first : k.Same l) (second : l.Same m) : k.Same m := by
  obtain ⟨dev, parent, name⟩ := Key.same_iff.mp first
  obtain ⟨dev', parent', name'⟩ := Key.same_iff.mp second
  exact Key.same_iff.mpr ⟨dev.trans dev', parent.trans parent', name.trans name'⟩

def Entry.key (e : Entry) : Key := ⟨e.dev, e.parentInum, e.name⟩

/-- Slot `i` has a valid entry for `k`. -/
def Cache.Has (c : Cache) (i : Fin NAMECACHE_SIZE) (k : Key) : Prop :=
  (c.entries i).valid = true ∧ (c.entries i).key.Same k

theorem Cache.has_iff : c.Has i k ↔ (c.entries i).hits k.dev k.parentInum k.name = true := by
  rw [Entry.hits_iff, Cache.Has, Key.same_iff]
  rfl

theorem find_has (found : find c k.dev k.parentInum k.name = some i) : c.Has i k := by
  have hits := List.find?_some found
  exact Cache.has_iff.mpr hits

theorem find_none (missing : find c k.dev k.parentInum k.name = none) : ¬ c.Has i k := by
  rw [Cache.has_iff]
  exact List.find?_eq_none.mp missing i (List.mem_finRange i)

theorem Cache.Has.congr (has : c.Has i k) (same : k.Same l) : c.Has i l :=
  ⟨has.1, has.2.trans same⟩

/-- A key found in no slot is found under none of its spellings. -/
theorem find_none_of_same (missing : find c k.dev k.parentInum k.name = none) (same : k.Same l) :
    ¬ c.Has i l :=
  fun has => find_none missing (has.congr same.symm)

variable {key : Key} {inum dev : Nat}

/-- An add of a key that slot `j` has only changes the inum there. -/
theorem perform_update (found : find c key.dev key.parentInum key.name = some j) :
    perform c (.add key inum) =
      { c with entries := Function.update c.entries j { c.entries j with inum := inum } } := by
  simp only [perform, namecacheAdd, found]

theorem has_update (found : find c key.dev key.parentInum key.name = some j) :
    (perform c (.add key inum)).Has i k ↔ c.Has i k := by
  rw [perform_update found]
  grind [Cache.Has, Function.update_self, Entry.key, Function.update_of_ne]

theorem perform_insert (missing : find c key.dev key.parentInum key.name = none) :
    perform c (.add key inum) =
      { entries := Function.update c.entries c.nextSlot
          ⟨true, key.dev, key.parentInum, strncpy key.name DIRSIZ, inum⟩
        nextSlot := c.nextSlot + 1 } := by
  simp only [perform, namecacheAdd, missing]

theorem has_insert_self (missing : find c key.dev key.parentInum key.name = none) :
    (perform c (.add key inum)).Has c.nextSlot k ↔ key.Same k := by
  rw [perform_insert missing]
  simp only [Cache.Has, Function.update_self, Entry.key, true_and, Key.same_iff,
    fieldString_strncpy]

theorem has_insert_other (missing : find c key.dev key.parentInum key.name = none)
    (apart : i ≠ c.nextSlot) : (perform c (.add key inum)).Has i k ↔ c.Has i k := by
  rw [perform_insert missing]
  simp only [Cache.Has, Function.update_of_ne apart]

theorem has_invalidate : (perform c (.invalidate dev inum)).Has i k ↔
    c.Has i k ∧ ¬ (k.dev = dev ∧ ((c.entries i).inum = inum ∨ k.parentInum = inum)) := by
  simp only [perform, namecacheInvalidate, Cache.Has]
  split
  · rename_i hit
    constructor
    · rintro ⟨valid, _⟩
      cases valid
    · rintro ⟨⟨_, same⟩, spared⟩
      obtain ⟨sameDev, sameParent, _⟩ := Key.same_iff.mp same
      rw [← sameDev, ← sameParent] at spared
      exact (spared hit.2).elim
  · rename_i spared
    constructor
    · rintro ⟨valid, same⟩
      obtain ⟨sameDev, sameParent, _⟩ := Key.same_iff.mp same
      simp only [Entry.key] at sameDev sameParent
      refine ⟨⟨valid, same⟩, fun hit => spared ⟨valid, ?_⟩⟩
      rw [sameDev, sameParent]
      exact hit
    · exact fun both => both.1

theorem not_has_clear : ¬ (perform c .clear).Has i k := by
  rintro ⟨valid, _⟩
  cases valid

end Slots

section Fifo

/-- `next_slot` is where it is when `n` slots after `i` were filled. -/
def Cache.Behind (c : Cache) (i : Fin NAMECACHE_SIZE) (n : Nat) : Prop :=
  c.nextSlot.val = (i.val + 1 + n) % NAMECACHE_SIZE

/-- The slots follow the history: a key is in one slot at most, with the inum last added for it,
and it is in one exactly while fewer than `NAMECACHE_SIZE` names were inserted after it. -/
structure Fifo (ops : List Op) : Prop where
  unique : ∀ i j k, (cacheAfter ops).Has i k → (cacheAfter ops).Has j k → i = j
  held : ∀ i k, (cacheAfter ops).Has i k → ((cacheAfter ops).entries i).inum = lastAdd k ops
  aged : ∀ i k, (cacheAfter ops).Has i k →
    ∃ n, Age k ops n ∧ n < NAMECACHE_SIZE ∧ (cacheAfter ops).Behind i n
  there : ∀ k n, Age k ops n → n < NAMECACHE_SIZE →
    ∃ i, (cacheAfter ops).Has i k ∧ (cacheAfter ops).Behind i n

variable {ops : List Op} {key : Key} {inum dev : Nat}

theorem fifo_nil : Fifo [] := by
  refine ⟨?_, ?_, ?_, ?_⟩
  · rintro i j k ⟨valid, _⟩
    cases valid
  · rintro i k ⟨valid, _⟩
    cases valid
  · rintro i k ⟨valid, _⟩
    cases valid
  · rintro k n ⟨first, rest, split, since, _⟩ _
    obtain ⟨before, op, ends, _⟩ := since.inserted
    simp [ends] at split

/-- An operation that inserts nothing leaves the ages of the entries it spares. -/
theorem age_spared {k : Key} {op : Op} {n : Nat} (other : ¬ op.Inserts k (cacheAfter ops))
    (none : op.insertsOther k (cacheAfter ops) = false) :
    Age k (ops ++ [op]) n ↔ Age k ops n ∧ Spares k ops op := by
  rw [age_snoc, none]
  constructor
  · rintro (⟨inserts, _⟩ | ⟨m, age, spares, rfl⟩)
    · exact (other inserts).elim
    · exact ⟨age, spares⟩
  · grind

theorem Fifo.lookup (fifo : Fifo ops) : Fifo (ops ++ [.lookup key]) := by
  have same : cacheAfter (ops ++ [.lookup key]) = cacheAfter ops := cacheAfter_snoc ops _
  have ages : ∀ k n, Age k (ops ++ [.lookup key]) n ↔ Age k ops n := by
    intro k n
    have other : ¬ (Op.lookup key).Inserts k (cacheAfter ops) := fun inserts => inserts
    rw [age_spared other rfl, and_iff_left_iff_imp]
    intro _
    exact ⟨other, Op.noConfusion, fun inum hit => Op.noConfusion hit⟩
  refine ⟨?_, ?_, ?_, ?_⟩ <;> simp only [same, lastAdd_snoc, Op.held, ages]
  · exact fifo.unique
  · exact fifo.held
  · exact fifo.aged
  · exact fifo.there

theorem Fifo.update {j : Fin NAMECACHE_SIZE} (fifo : Fifo ops)
    (found : find (cacheAfter ops) key.dev key.parentInum key.name = some j) :
    Fifo (ops ++ [.add key inum]) := by
  have after := cacheAfter_snoc ops (.add key inum)
  have has : ∀ i k, (cacheAfter (ops ++ [.add key inum])).Has i k ↔ (cacheAfter ops).Has i k := by
    intro i k
    rw [after, has_update found]
  have behind : ∀ i n, (cacheAfter (ops ++ [.add key inum])).Behind i n ↔
      (cacheAfter ops).Behind i n := by
    intro i n
    rw [after, perform_update found]
    rfl
  have ages : ∀ k n, Age k (ops ++ [.add key inum]) n ↔ Age k ops n := by
    intro k n
    have other : ¬ (Op.add key inum).Inserts k (cacheAfter ops) := by
      rintro ⟨missing, _⟩
      rw [found] at missing
      cases missing
    rw [age_spared other (by simp only [Op.insertsOther, found]; rfl), and_iff_left_iff_imp]
    intro _
    exact ⟨other, Op.noConfusion, fun inum hit => Op.noConfusion hit⟩
  refine ⟨?_, ?_, ?_, ?_⟩ <;> simp only [has, behind, ages]
  · exact fifo.unique
  · intro i k has
    rw [after, perform_update found, lastAdd_snoc]
    simp only [Op.held]
    by_cases same : key.Same k
    · have here : i = j := fifo.unique i j k has ((find_has found).congr same)
      simp only [here, Function.update_self, same, ↓reduceIte]
    · have apart : i ≠ j := by
        intro here
        rw [here] at has
        exact same ((find_has found).2.symm.trans has.2)
      grind [Function.update_of_ne, held]
  · exact fifo.aged
  · exact fifo.there

theorem fifo_clear : Fifo (ops ++ [.clear]) := by
  have none : ∀ i k, ¬ (cacheAfter (ops ++ [.clear])).Has i k := by
    intro i k
    rw [cacheAfter_snoc]
    exact not_has_clear
  refine ⟨fun i j k has => (none i k has).elim, fun i k has => (none i k has).elim,
    fun i k has => (none i k has).elim, ?_⟩
  intro k n age
  have other : ¬ Op.clear.Inserts k (cacheAfter ops) := fun inserts => inserts
  rw [age_spared other rfl] at age
  exact (age.2.uncleared rfl).elim

theorem Fifo.invalidate (fifo : Fifo ops) : Fifo (ops ++ [.invalidate dev inum]) := by
  have after := cacheAfter_snoc ops (.invalidate dev inum)
  have behind : ∀ i n, (cacheAfter (ops ++ [.invalidate dev inum])).Behind i n ↔
      (cacheAfter ops).Behind i n := by
    intro i n
    rw [after]
    rfl
  have ages : ∀ k n, Age k (ops ++ [.invalidate dev inum]) n ↔
      Age k ops n ∧ ¬ (k.dev = dev ∧ (lastAdd k ops = inum ∨ k.parentInum = inum)) := by
    intro k n
    have other : ¬ (Op.invalidate dev inum).Inserts k (cacheAfter ops) := fun inserts => inserts
    rw [age_spared other rfl]
    refine and_congr_right fun _ => ⟨?_, ?_⟩
    · rintro spares ⟨same, hit⟩
      obtain ⟨parent, held⟩ := spares.unhit inum (by rw [same])
      omega
    · intro spared
      refine ⟨other, Op.noConfusion, ?_⟩
      rintro _ hit
      obtain ⟨rfl, rfl⟩ := Op.invalidate.inj hit
      exact ⟨fun hit => spared ⟨rfl, .inr hit.symm⟩, fun hit => spared ⟨rfl, .inl hit.symm⟩⟩
  have has : ∀ i k, (cacheAfter (ops ++ [.invalidate dev inum])).Has i k ↔
    (cacheAfter ops).Has i k ∧
      ¬ (k.dev = dev ∧ (lastAdd k ops = inum ∨ k.parentInum = inum)) := by
    intro i k
    rw [after, has_invalidate]
    refine and_congr_right fun has => ?_
    rw [fifo.held i k has]
  refine ⟨?_, ?_, ?_, ?_⟩ <;> simp only [has, behind, ages]
  · grind [unique]
  · rintro i k ⟨has, _⟩
    have same : lastAdd k (ops ++ [.invalidate dev inum]) = lastAdd k ops := lastAdd_snoc ops _
    grind [held, perform, namecacheInvalidate]
  · rintro i k ⟨has, spared⟩
    obtain ⟨n, age, young, slot⟩ := fifo.aged i k has
    exact ⟨n, ⟨age, spared⟩, young, slot⟩
  · rintro k n ⟨age, spared⟩ young
    obtain ⟨i, has, slot⟩ := fifo.there k n age young
    exact ⟨i, ⟨has, spared⟩, slot⟩

/-- The slot that is filled next is the one that was filled `NAMECACHE_SIZE` insertions ago. -/
theorem Cache.Behind.next_iff {c : Cache} {i : Fin NAMECACHE_SIZE} {n : Nat} (behind : c.Behind i n)
    (young : n < NAMECACHE_SIZE) : i ≠ c.nextSlot ↔ n + 1 < NAMECACHE_SIZE := by
  have slot := i.isLt
  rw [ne_eq, Fin.ext_iff, behind]
  simp only [NAMECACHE_SIZE] at young slot ⊢
  omega

theorem Cache.Behind.step {c next : Cache} {i : Fin NAMECACHE_SIZE} {n : Nat}
    (behind : c.Behind i n) (moved : next.nextSlot = c.nextSlot + 1) : next.Behind i (n + 1) := by
  simp only [Cache.Behind, NAMECACHE_SIZE] at behind ⊢
  have value : (c.nextSlot + 1).val = (c.nextSlot.val + 1) % 32 := Fin.val_add _ _
  omega

theorem Fifo.insert (fifo : Fifo ops)
    (missing : find (cacheAfter ops) key.dev key.parentInum key.name = none) :
    Fifo (ops ++ [.add key inum]) := by
  have after := cacheAfter_snoc ops (.add key inum)
  have moved : (cacheAfter (ops ++ [.add key inum])).nextSlot = (cacheAfter ops).nextSlot + 1 := by
    rw [after, perform_insert missing]
  -- A key in the filled slot is the one added, a key in another slot is not.
  have self : ∀ k, (cacheAfter (ops ++ [.add key inum])).Has (cacheAfter ops).nextSlot k ↔
      key.Same k := by
    intro k
    rw [after, has_insert_self missing]
  have other : ∀ i k, i ≠ (cacheAfter ops).nextSlot →
      ((cacheAfter (ops ++ [.add key inum])).Has i k ↔ (cacheAfter ops).Has i k) := by
    intro i k apart
    rw [after, has_insert_other missing apart]
  have kept : ∀ i k, i ≠ (cacheAfter ops).nextSlot → (cacheAfter ops).Has i k → ¬ key.Same k :=
    fun i k _ has same => find_none_of_same missing same has
  have spared : ∀ k, ¬ key.Same k → Spares k ops (.add key inum) := by
    intro k differs
    exact ⟨fun inserts => differs inserts.2, Op.noConfusion, fun inum hit => Op.noConfusion hit⟩
  have counted : ∀ k, ¬ key.Same k → (Op.add key inum).insertsOther k (cacheAfter ops) = true := by
    grind [Op.insertsOther, Option.isNone_none, decide_false, Bool.not_false, Bool.and_self]
  refine ⟨?_, ?_, ?_, ?_⟩
  · intro i j k first second
    by_cases here : i = (cacheAfter ops).nextSlot
    · by_cases there : j = (cacheAfter ops).nextSlot
      · rw [here, there]
      · grind
    · rw [other i k here] at first
      by_cases there : j = (cacheAfter ops).nextSlot
      · grind
      · grind [unique]
  · intro i k has
    rw [lastAdd_snoc, Op.held]
    by_cases here : i = (cacheAfter ops).nextSlot
    · rw [here, self] at has
      rw [after, perform_insert missing, here, if_pos has]
      simp only [Function.update_self]
    · rw [other i k here] at has
      rw [after, perform_insert missing, if_neg (kept i k here has)]
      simp only [Function.update_of_ne here]
      exact fifo.held i k has
  · intro i k has
    by_cases here : i = (cacheAfter ops).nextSlot
    · rw [here, self] at has
      refine ⟨0, age_snoc.mpr (.inl ⟨⟨missing, has⟩, rfl⟩), by decide, ?_⟩
      rw [Cache.Behind, moved, here]
      rfl
    · rw [other i k here] at has
      obtain ⟨n, age, young, slot⟩ := fifo.aged i k has
      have differs := kept i k here has
      refine ⟨n + 1, age_snoc.mpr (.inr ⟨n, age, spared k differs, ?_⟩),
        (slot.next_iff young).mp here, slot.step moved⟩
      rw [counted k differs, Bool.toNat_true]
  · intro k m age young
    rcases age_snoc.mp age with ⟨⟨_, same⟩, rfl⟩ | ⟨n, before, spares, rfl⟩
    · refine ⟨(cacheAfter ops).nextSlot, (self k).mpr same, ?_⟩
      rw [Cache.Behind, moved]
      rfl
    · have differs : ¬ key.Same k := fun same => spares.latest ⟨missing, same⟩
      rw [counted k differs, Bool.toNat_true] at young ⊢
      obtain ⟨i, has, slot⟩ := fifo.there k n before (by omega)
      have here := (slot.next_iff (by omega)).mpr young
      exact ⟨i, (other i k here).mpr has, slot.step moved⟩

theorem fifo_cacheAfter (ops : List Op) : Fifo ops := by
  induction ops using List.reverseRecOn with
  | nil => exact fifo_nil
  | append_singleton ops op ih =>
    cases op with
    | add key inum =>
      cases found : find (cacheAfter ops) key.dev key.parentInum key.name with
      | none => exact ih.insert found
      | some j => exact ih.update found
    | lookup key => exact ih.lookup
    | invalidate dev inum => exact ih.invalidate
    | clear => exact fifo_clear

/-- A slot's inum was given by one of the adds. -/
theorem all_cacheAfter {good : Nat → Prop} (ops : List Op)
    (adds : ∀ key inum, Op.add key inum ∈ ops → good inum) :
    (cacheAfter ops).All fun e => good e.inum := by
  induction ops using List.reverseRecOn with
  | nil => exact all_namecacheInit _
  | append_singleton ops op ih =>
    have before := ih fun key inum member => adds key inum (List.mem_append_left _ member)
    rw [cacheAfter_snoc]
    cases op with
    | add key inum =>
      have added := adds key inum (by simp)
      exact before.add fun e _ same => same ▸ added
    | lookup key => exact before
    | invalidate dev inum => exact (before.invalidate dev inum).mono fun e _ left => left.1
    | clear =>
      intro i valid
      cases valid

/-- After any operations the cache has at most one valid entry for a key. A key is found
exactly if it was inserted and since the latest insertion fewer than `NAMECACHE_SIZE` other keys
were inserted and its entry was not invalidated or cleared; what is found is the inum of the most
recent add. -/
theorem namecache_is_fifo (ops : List Op) (nonzero : ∀ key inum, Op.add key inum ∈ ops → inum ≠ 0) :
    (∀ i j, ((cacheAfter ops).entries i).valid = true → ((cacheAfter ops).entries j).valid = true →
      ((cacheAfter ops).entries i).key.Same ((cacheAfter ops).entries j).key → i = j) ∧ ∀ k : Key,
      (namecacheLookup (cacheAfter ops) k.dev k.parentInum k.name ≠ 0 ↔
        ∃ first rest, ops = first ++ rest ∧ Since k first rest ∧
          insertions k (cacheAfter first) rest < NAMECACHE_SIZE) ∧
      (namecacheLookup (cacheAfter ops) k.dev k.parentInum k.name ≠ 0 →
        namecacheLookup (cacheAfter ops) k.dev k.parentInum k.name = lastAdd k ops) := by
  have fifo := fifo_cacheAfter ops
  refine ⟨?_, fun k => ⟨⟨?_, ?_⟩, ?_⟩⟩
  · intro i j valid valid' same
    have self : ((cacheAfter ops).entries j).key.Same ((cacheAfter ops).entries j).key :=
      Key.same_iff.mpr ⟨rfl, rfl, rfl⟩
    exact fifo.unique i j _ ⟨valid, same⟩ ⟨valid', self⟩
  · intro hit
    cases found : find (cacheAfter ops) k.dev k.parentInum k.name with
    | none => simp [namecacheLookup, found] at hit
    | some i =>
      obtain ⟨n, ⟨first, rest, split, since, rfl⟩, young, _⟩ := fifo.aged i k (find_has found)
      exact ⟨first, rest, split, since, young⟩
  · rintro ⟨first, rest, split, since, young⟩
    obtain ⟨i, has, _⟩ := fifo.there k _ ⟨first, rest, split, since, rfl⟩ young
    cases found : find (cacheAfter ops) k.dev k.parentInum k.name with
    | none => exact (find_none found has).elim
    | some j =>
      simp only [namecacheLookup, found]
      exact all_cacheAfter ops nonzero j (find_has found).1
  · intro hit
    cases found : find (cacheAfter ops) k.dev k.parentInum k.name with
    | none => simp [namecacheLookup, found] at hit
    | some i =>
      simp only [namecacheLookup, found]
      exact fifo.held i k (find_has found)

/-- A name added, added again with another inum, and one in the same directory invalidated. -/
def readd : List Op :=
  [.add ⟨1, 1, [97]⟩ 5, .add ⟨1, 1, [98]⟩ 6, .add ⟨1, 1, [97]⟩ 7, .invalidate 1 6]

theorem namecache_is_fifo_readd : namecacheLookup (cacheAfter readd) 1 1 [97] ≠ 0 ∧
    namecacheLookup (cacheAfter readd) 1 1 [97] = lastAdd ⟨1, 1, [97]⟩ readd := by
  have nonzero : ∀ key inum, Op.add key inum ∈ readd → inum ≠ 0 := by
    intro key inum member
    simp only [readd, List.mem_cons, Op.add.injEq, reduceCtorEq, List.not_mem_nil,
      or_false] at member
    omega
  have hit : namecacheLookup (cacheAfter readd) 1 1 [97] ≠ 0 := by decide +kernel
  exact ⟨hit, ((namecache_is_fifo readd nonzero).2 ⟨1, 1, [97]⟩).2 hit⟩

end Fifo

end Xv6.Namecache
