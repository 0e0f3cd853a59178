import Mathlib.Data.List.Basic

/- string.c over byte lists. A pointer is the list of bytes it points to, and a
read past the end of the list is the terminating NUL. -/
namespace Xv6.CString

/-- The byte a pointer points to. -/
def deref (p : List UInt8) : UInt8 := p.headD 0

def strncmp : List UInt8 → List UInt8 → Nat → Int
  | _, _, 0 => 0
  | p, q, n + 1 =>
    if deref p ≠ 0 ∧ deref p = deref q then strncmp p.tail q.tail n
    else (deref p).toNat - (deref q).toNat

/-- The `n` bytes `strncpy` leaves at its destination. -/
def strncpy : List UInt8 → Nat → List UInt8
  | _, 0 => []
  | t, n + 1 => if deref t = 0 then List.replicate (n + 1) 0 else deref t :: strncpy t.tail n

/-- The string `safestrcpy` leaves at a destination of `n` bytes, up to its NUL. -/
def safestrcpy : List UInt8 → Nat → List UInt8
  | _, 0 => []
  | _, 1 => []
  | t, n + 2 => if deref t = 0 then [] else deref t :: safestrcpy t.tail (n + 1)

/-- The string a field of `n` bytes holds: up to a NUL or the end of the field. -/
def fieldString (n : Nat) (s : List UInt8) : List UInt8 := (s.take n).takeWhile (· ≠ 0)

theorem fieldString_zero (s : List UInt8) : fieldString 0 s = [] := rfl

theorem fieldString_succ (n : Nat) (s : List UInt8) :
    fieldString (n + 1) s = if deref s = 0 then [] else deref s :: fieldString n s.tail := by
  cases s with
  | nil => rfl
  | cons c s =>
    simp only [fieldString, List.take_succ_cons, List.takeWhile_cons, deref, List.headD_cons,
      List.tail_cons, ne_eq, decide_not, Bool.not_eq_true']
    by_cases zero : c = 0 <;> simp [zero]

@[simp] theorem deref_cons (c : UInt8) (s : List UInt8) : deref (c :: s) = c := rfl

/-- `strncmp` compares the strings of two fields. -/
theorem strncmp_eq_zero (n : Nat) (s t : List UInt8) :
    strncmp s t n = 0 ↔ fieldString n s = fieldString n t := by
  induction n generalizing s t with
  | zero => simp [strncmp, fieldString_zero]
  | succ n ih =>
    rw [strncmp, fieldString_succ, fieldString_succ]
    by_cases same : deref s = deref t
    · by_cases zero : deref t = 0
      · simp [same, zero]
      · simp [same, zero, ih]
    · have apart : (deref s).toNat ≠ (deref t).toNat := fun equal => same (UInt8.toNat_inj.mp equal)
      have differ : ((deref s).toNat : Int) - (deref t).toNat ≠ 0 := by omega
      rw [if_neg (fun both => same both.2)]
      constructor
      · intro zero
        exact (differ zero).elim
      · intro equal
        exfalso
        split at equal
        · grind
        · grind

theorem fieldString_strncpy (n : Nat) (t : List UInt8) :
    fieldString n (strncpy t n) = fieldString n t := by
  induction n generalizing t with
  | zero => rfl
  | succ n ih =>
    grind [fieldString_succ, strncpy, deref, deref_cons, List.tail_cons]

/-- A string that fits its destination is copied as it is. -/
theorem safestrcpy_fits (t : List UInt8) (n : Nat) (text : ∀ c ∈ t, c ≠ 0) (fits : t.length < n) :
    safestrcpy t n = t := by
  induction t generalizing n with
  | nil =>
    match n with
    | 1 => rfl
    | n + 2 => rfl
  | cons c t ih =>
    simp only [List.length_cons] at fits
    obtain ⟨m, rfl⟩ : ∃ m, n = m + 2 := ⟨n - 2, by omega⟩
    have shorter := ih (m + 1) (fun d member => text d (List.mem_cons_of_mem c member)) (by omega)
    simp only [safestrcpy, deref_cons, List.tail_cons, text c List.mem_cons_self,
      ↓reduceIte, shorter]

/-- What `safestrcpy` stores is a string of its field. -/
theorem fieldString_safestrcpy (n : Nat) (t : List UInt8) :
    fieldString n (safestrcpy t n) = safestrcpy t n := by
  induction n generalizing t with
  | zero => rfl
  | succ n ih =>
    cases n with
    | zero => rfl
    | succ n =>
      grind [safestrcpy, fieldString_succ, deref, deref_cons, List.tail_cons]

theorem strncpy_length (n : Nat) (t : List UInt8) : (strncpy t n).length = n := by
  induction n generalizing t with
  | zero => rfl
  | succ n ih =>
    grind [strncpy]

end Xv6.CString
