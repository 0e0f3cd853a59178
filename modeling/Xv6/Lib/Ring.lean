import Mathlib.Data.List.Nodup
import Mathlib.Logic.Function.Basic

/- Circular doubly linked lists, as two link fields of their nodes. -/
namespace Ring

/-- The link fields of every node. -/
structure Links (α : Type) where
  next : α → α
  prev : α → α

variable {α : Type}

section Operations

variable [DecidableEq α]

def Links.setNext (links : Links α) (a b : α) : Links α :=
  { links with next := Function.update links.next a b }

def Links.setPrev (links : Links α) (a b : α) : Links α :=
  { links with prev := Function.update links.prev a b }

/-- Every link of a list that holds its head only. -/
def Links.alone (links : Links α) (head : α) : Links α :=
  (links.setPrev head head).setNext head head

/-- Take `b` out of its list; its own links are left as they are. -/
def Links.remove (links : Links α) (b : α) : Links α :=
  let links := links.setPrev (links.next b) (links.prev b)
  links.setNext (links.prev b) (links.next b)

/-- Put `b` right behind `head`. -/
def Links.insertAfter (links : Links α) (head b : α) : Links α :=
  let links := links.setNext b (links.next head)
  let links := links.setPrev b head
  let links := links.setPrev (links.next head) b
  links.setNext head b

/-- The nodes a loop meets that starts at `a` and ends at `stop`. -/
def walk (follow : α → α) (stop : α) : Nat → α → List α
  | 0, _ => []
  | fuel + 1, a => if a = stop then [] else a :: walk follow stop fuel (follow a)

end Operations

/-- Each node is linked to the one behind it, in both directions. -/
def Chained (links : Links α) : List α → Prop
  | a :: b :: rest => links.next a = b ∧ links.prev b = a ∧ Chained links (b :: rest)
  | _ => True

/-- The list of `head` holds the nodes of `order`, each once. -/
structure IsRing (links : Links α) (head : α) (order : List α) : Prop where
  distinct : (head :: order).Nodup
  chained : Chained links (head :: (order ++ [head]))

variable {links links' : Links α} {head : α} {order : List α}

theorem chained_split (xs : List α) (a : α) (ys : List α) :
    Chained links (xs ++ a :: ys) ↔ Chained links (xs ++ [a]) ∧ Chained links (a :: ys) := by
  induction xs with
  | nil => simp [Chained]
  | cons x xs ih =>
    cases xs with
    | nil => simp [Chained, and_assoc]
    | cons y xs =>
      simp only [List.cons_append, Chained] at ih ⊢
      rw [ih, and_assoc, and_assoc]

/-- A chain reads `next` of all nodes but the last and `prev` of all but the first. -/
theorem Chained.frame {l : List α} (chained : Chained links l)
    (forward : ∀ a ∈ l.dropLast, links'.next a = links.next a)
    (backward : ∀ a ∈ l.tail, links'.prev a = links.prev a) : Chained links' l := by
  induction l with
  | nil => trivial
  | cons a l ih =>
    cases l with
    | nil => trivial
    | cons b rest =>
      obtain ⟨next, prev, chained⟩ := chained
      refine ⟨?_, ?_, ih chained (fun x inside => ?_) (fun x inside => ?_)⟩
      · rw [forward a (by simp), next]
      · rw [backward b (by simp), prev]
      · exact forward x (by simpa using Or.inr inside)
      · exact backward x (List.mem_cons_of_mem _ inside)

/-- The same list read through `prev`. -/
theorem Chained.reverse {l : List α} (chained : Chained links l) :
    Chained ⟨links.prev, links.next⟩ l.reverse := by
  induction l with
  | nil => trivial
  | cons a l ih =>
    cases l with
    | nil => trivial
    | cons b rest =>
      obtain ⟨next, prev, chained⟩ := chained
      rw [List.reverse_cons, List.reverse_cons, List.append_assoc]
      refine (chained_split _ b [a]).mpr ⟨?_, prev, next, trivial⟩
      rw [← List.reverse_cons]
      exact ih chained

theorem IsRing.reverse (ring : IsRing links head order) :
    IsRing ⟨links.prev, links.next⟩ head order.reverse := by
  refine ⟨?_, ?_⟩
  · simpa using ring.distinct
  · have chained := ring.chained.reverse
    simpa using chained

section Preservation

variable [DecidableEq α]

theorem IsRing.alone (links : Links α) (head : α) : IsRing (links.alone head) head [] := by
  refine ⟨by simp, ?_, ?_, trivial⟩ <;> simp [Links.alone, Links.setNext, Links.setPrev]

theorem IsRing.remove {b : α} {xs ys : List α} (ring : IsRing links head (xs ++ b :: ys)) :
    IsRing (links.remove b) head (xs ++ ys) := by
  obtain ⟨pre, a, before⟩ : ∃ pre a, head :: xs = pre ++ [a] := by
    rcases List.eq_nil_or_concat (head :: xs) with none | ⟨pre, a, split⟩
    · cases none
    · exact ⟨pre, a, by simpa using split⟩
  obtain ⟨c, post, behind⟩ : ∃ c post, ys ++ [head] = c :: post :=
    List.exists_cons_of_ne_nil (by simp)
  have whole : head :: (xs ++ b :: ys ++ [head]) = pre ++ a :: b :: c :: post := by grind
  have chained := ring.chained
  rw [whole] at chained
  obtain ⟨front, -, prevb, nextb, -, back⟩ := (chained_split pre a _).mp chained
  -- The three parts of the list share no node: the head and `xs`, `b`, `ys` and the head.
  have distinct := ring.distinct
  simp only [List.nodup_cons, List.nodup_append, List.mem_append, List.mem_cons, not_or] at distinct
  obtain ⟨⟨headxs, headb, headys⟩, nodupxs, ⟨bys, nodupys⟩, disjoint⟩ := distinct
  have nodupBefore : (pre ++ [a]).Nodup := by grind
  have nodupBehind : (c :: post).Nodup := by grind
  have memBehind : c = head ∨ c ∈ ys := by
    have member : c ∈ ys ++ [head] := by rw [behind]; simp
    exact List.mem_cons.mp ((List.perm_append_singleton head ys).mem_iff.mp member)
  have memBefore : a = head ∨ a ∈ xs := by
    have member : a ∈ head :: xs := by rw [before]; simp
    exact List.mem_cons.mp member
  have apart : b ≠ c := by
    rintro rfl
    rcases memBehind with same | inside
    · exact headb same.symm
    · exact bys inside
  have next : (links.remove b).next = Function.update links.next a c := by
    simp [Links.remove, Links.setNext, Links.setPrev, nextb, prevb, Function.update_of_ne apart]
  have prev : (links.remove b).prev = Function.update links.prev c a := by
    simp [Links.remove, Links.setNext, Links.setPrev, nextb, prevb]
  refine ⟨?_, ?_⟩
  · grind
  · have joined : head :: (xs ++ ys ++ [head]) = pre ++ a :: c :: post := by grind
    rw [joined, chained_split]
    refine ⟨front.frame (fun x inside => ?_) (fun x inside => ?_), ?_, ?_,
      back.frame (fun x inside => ?_) (fun x inside => ?_)⟩
    · rw [next, Function.update_of_ne]
      grind
    · rw [prev, Function.update_of_ne]
      rintro rfl
      rw [← before, List.tail_cons] at inside
      rcases memBehind with same | there
      · exact headxs (same ▸ inside)
      · exact disjoint x inside x (Or.inr there) rfl
    · rw [next, Function.update_self]
    · rw [prev, Function.update_self]
    · rw [next, Function.update_of_ne]
      rintro rfl
      rw [← behind, List.dropLast_concat] at inside
      rcases memBefore with same | there
      · exact headys (same ▸ inside)
      · exact disjoint x there x (Or.inr inside) rfl
    · rw [prev, Function.update_of_ne]
      grind

theorem IsRing.insertAfter {b : α} (ring : IsRing links head order) (fresh : b ∉ head :: order) :
    IsRing (links.insertAfter head b) head (b :: order) := by
  obtain ⟨c, post, behind⟩ : ∃ c post, order ++ [head] = c :: post :=
    List.exists_cons_of_ne_nil (by simp)
  have chained := ring.chained
  rw [behind] at chained
  obtain ⟨nextHead, -, back⟩ := chained
  obtain ⟨notHead, notOrder⟩ := not_or.mp (mt List.mem_cons.mpr fresh)
  have member : c = head ∨ c ∈ order := by
    have member : c ∈ order ++ [head] := by rw [behind]; simp
    exact List.mem_cons.mp ((List.perm_append_singleton head order).mem_iff.mp member)
  have apart : b ≠ c := by
    rintro rfl
    rcases member with same | inside
    · exact notHead same
    · exact notOrder inside
  have next : (links.insertAfter head b).next =
      Function.update (Function.update links.next b c) head b := by
    simp [Links.insertAfter, Links.setNext, Links.setPrev, nextHead]
  have prev : (links.insertAfter head b).prev =
      Function.update (Function.update links.prev b head) c b := by
    simp [Links.insertAfter, Links.setNext, Links.setPrev, nextHead,
      Function.update_of_ne (Ne.symm notHead)]
  have nodupBehind : (c :: post).Nodup := by
    rw [← behind]
    exact (List.perm_append_singleton head order).nodup_iff.mpr ring.distinct
  refine ⟨?_, ?_⟩
  · have distinct := ring.distinct
    simp only [List.nodup_cons, List.mem_cons, not_or] at distinct ⊢
    exact ⟨⟨Ne.symm notHead, distinct.1⟩, notOrder, distinct.2⟩
  · rw [List.cons_append, behind]
    refine ⟨?_, ?_, ?_, ?_, back.frame (fun x inside => ?_) (fun x inside => ?_)⟩
    · rw [next, Function.update_self]
    · rw [prev, Function.update_of_ne apart, Function.update_self]
    · rw [next, Function.update_of_ne notHead, Function.update_self]
    · rw [prev, Function.update_self]
    · rw [← behind, List.dropLast_concat] at inside
      rw [next, Function.update_of_ne, Function.update_of_ne]
      · rintro rfl
        exact notOrder inside
      · grind
    · rw [List.tail_cons] at inside
      rw [prev, Function.update_of_ne, Function.update_of_ne]
      · rintro rfl
        have there : x ∈ order ++ [head] := by rw [behind]; simp [inside]
        exact fresh ((List.perm_append_singleton head order).mem_iff.mp there)
      · grind

/-- Nodes put behind the head one after another end up last first. -/
theorem IsRing.foldl_insertAfter {bs : List α} (ring : IsRing links head order)
    (distinct : bs.Nodup) (fresh : ∀ b ∈ bs, b ∉ head :: order) :
    IsRing (bs.foldl (fun links b => links.insertAfter head b) links) head
      (bs.reverse ++ order) := by
  induction bs generalizing links order with
  | nil => simpa using ring
  | cons b bs ih =>
    obtain ⟨new, distinct⟩ := List.nodup_cons.mp distinct
    rw [List.foldl_cons, List.reverse_cons, List.append_assoc, List.singleton_append]
    refine ih (ring.insertAfter (fresh b List.mem_cons_self)) distinct fun x inside => ?_
    have old := fresh x (List.mem_cons_of_mem _ inside)
    simp only [List.mem_cons, not_or] at old ⊢
    exact ⟨old.1, fun same => new (same ▸ inside), old.2⟩

/-- Following `next` from the head meets the nodes in order and comes back to the head. -/
theorem IsRing.walk_next (ring : IsRing links head order) {fuel : Nat}
    (enough : order.length ≤ fuel) : walk links.next head fuel (links.next head) = order := by
  have follow : ∀ (rest : List α) (a : α) (fuel : Nat), head ∉ rest → rest.length ≤ fuel →
      Chained links (a :: (rest ++ [head])) → walk links.next head fuel (links.next a) = rest := by
    intro rest
    induction rest with
    | nil =>
      intro a fuel _ _ chained
      rw [chained.1]
      cases fuel <;> simp [walk]
    | cons b rest ih =>
      intro a fuel avoids enough chained
      obtain ⟨next, -, chained⟩ := chained
      obtain ⟨apart, avoids⟩ := not_or.mp (mt List.mem_cons.mpr avoids)
      cases fuel with
      | zero => simp at enough
      | succ fuel =>
        rw [next, walk, if_neg (Ne.symm apart),
          ih b fuel avoids (by simpa using enough) chained]
  exact follow order head fuel (List.nodup_cons.mp ring.distinct).1 enough ring.chained

theorem IsRing.walk_prev (ring : IsRing links head order) {fuel : Nat}
    (enough : order.length ≤ fuel) : walk links.prev head fuel (links.prev head) = order.reverse :=
  ring.reverse.walk_next (by simpa using enough)

end Preservation

end Ring
