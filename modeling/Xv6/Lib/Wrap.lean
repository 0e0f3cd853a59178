import Mathlib.Algebra.Order.Group.Nat
import Mathlib.Data.Nat.ModEq
import Mathlib.Data.Fin.Basic
import Mathlib.Logic.Function.Basic

/- Rings indexed by counters that wrap at 2^32, which the size of the ring divides. -/
namespace Wrap

section Counters

theorem toNat_add_mod {size : Nat} (divides : size ∣ 2 ^ 32) (counter : UInt32) (j : Nat) :
    (counter + UInt32.ofNat j).toNat % size = (counter.toNat + j) % size := by
  rw [UInt32.toNat_add, UInt32.toNat_ofNat', Nat.add_mod_mod, Nat.mod_mod_of_dvd _ divides]

/-- Distances below the size of the ring are told apart by the slot, across a wrap too. -/
theorem mod_add_inj {size j k : Nat} {counter : UInt32} (divides : size ∣ 2 ^ 32)
    (close : j < k + size) (near : k ≤ j)
    (same : (counter + UInt32.ofNat j).toNat % size = (counter + UInt32.ofNat k).toNat % size) :
    j = k := by
  rw [toNat_add_mod divides, toNat_add_mod divides] at same
  have equal : k % size = j % size := (Nat.ModEq.add_left_cancel' counter.toNat same).symm
  have multiple : size ∣ j - k := (Nat.modEq_iff_dvd' near).mp equal
  have zero : j - k = 0 := Nat.eq_zero_of_dvd_of_lt multiple (by omega)
  omega

/-- The distance of two counters, when it is below 2^32. -/
theorem toNat_add_sub {counter : UInt32} {j : Nat} (small : j < 2 ^ 32) :
    (counter + UInt32.ofNat j - counter).toNat = j := by
  rw [show counter + UInt32.ofNat j - counter = UInt32.ofNat j by grind, UInt32.toNat_ofNat',
    Nat.mod_eq_of_lt small]

theorem add_ofNat_inj {counter : UInt32} {j k : Nat} (left : j < 2 ^ 32) (right : k < 2 ^ 32)
    (same : counter + UInt32.ofNat j = counter + UInt32.ofNat k) : j = k := by
  rw [← @toNat_add_sub counter j left, ← @toNat_add_sub counter k right, same]

theorem add_ofNat_succ (counter : UInt32) (j : Nat) :
    counter + UInt32.ofNat (j + 1) = counter + UInt32.ofNat j + 1 := by
  rw [UInt32.ofNat_add, ← UInt32.add_assoc]
  rfl

end Counters

section Rings

variable {α : Type} {size : Nat} [NeZero size] {data : Fin size → α} {first : UInt32}
  {contents : List α} {b : α}

def slot (size : Nat) [NeZero size] (counter : UInt32) : Fin size := Fin.ofNat size counter.toNat

/-- The slots from `first` on hold these items. -/
structure Held (data : Fin size → α) (first : UInt32) (contents : List α) : Prop where
  room : contents.length ≤ size
  items : ∀ k b, contents[k]? = some b → data (slot size (first + UInt32.ofNat k)) = b

theorem Held.nil (data : Fin size → α) (first : UInt32) :
    Held data first [] := ⟨Nat.zero_le _, nofun⟩

theorem Held.push (held : Held data first contents) (divides : size ∣ 2 ^ 32)
    (space : contents.length < size) (b : α) :
    Held (Function.update data (slot size (first + UInt32.ofNat contents.length)) b) first
      (contents ++ [b]) := by
  refine ⟨?_, fun k item inside => ?_⟩
  · grind
  · have bound := (List.getElem?_eq_some_iff.mp inside).1
    rw [List.length_append, List.length_singleton] at bound
    by_cases last : k = contents.length
    · grind
    · have within : k < contents.length := by omega
      rw [List.getElem?_append_left within] at inside
      have apart : slot size (first + UInt32.ofNat k) ≠ slot size
        (first + UInt32.ofNat contents.length) := by
        intro same
        have equal : (first + UInt32.ofNat contents.length).toNat % size =
          (first + UInt32.ofNat k).toNat % size :=
          (congrArg Fin.val same).symm
        exact last (mod_add_inj divides (by omega) (by omega) equal).symm
      rw [Function.update_of_ne apart]
      exact held.items k item inside

theorem Held.head (held : Held data first (b :: contents)) : data (slot size first) = b := by
  have item := held.items 0 b rfl
  rwa [show first + UInt32.ofNat 0 = first from UInt32.add_zero first] at item

theorem Held.pop (held : Held data first (b :: contents)) : Held data (first + 1) contents := by
  refine ⟨(Nat.le_succ _).trans held.room, fun k item inside => ?_⟩
  have next := held.items (1 + k) item (by rw [Nat.add_comm]; exact inside)
  rw [UInt32.ofNat_add, ← UInt32.add_assoc] at next
  exact next

theorem Held.last (held : Held data first (contents ++ [b])) :
    data (slot size (first + UInt32.ofNat contents.length)) = b :=
  held.items contents.length b List.getElem?_concat_length

theorem Held.left {rest : List α} (held : Held data first (contents ++ rest)) :
    Held data first contents := by
  refine ⟨?_, fun k item inside => held.items k item ?_⟩
  · have room := held.room
    rw [List.length_append] at room
    omega
  · rw [List.getElem?_append_left (List.getElem?_eq_some_iff.mp inside).1, inside]

end Rings

end Wrap
