import Mathlib.Data.Nat.Digits.Defs

/- The user program `chmod`: its arguments, the system calls it makes and what it prints.
`char` is signed and `int` arithmetic wraps at 32 bits. -/
namespace Xv6.Chmod

def toChar (c : UInt8) : Int := if c.toNat < 128 then c.toNat else c.toNat - 256

def toInt (x : Int) : Int := x.bmod (2 ^ 32)

/-- The loop of `parse_mode`, at the string from `str[i]` on. -/
def parseModeLoop (mode : Int) : List UInt8 → Int
  | [] => mode
  | c :: str =>
    if c = 0 then mode
    else if toChar c < 48 ∨ toChar c > 55 then -1
    else parseModeLoop (toInt (toInt (mode * 8) + (toChar c - 48))) str

def parseMode (str : List UInt8) : Int := parseModeLoop 0 str

inductive Arg
  | string (s : List UInt8)
  | int (n : Int)
  deriving DecidableEq

/-- What the program does: a `printf` to a descriptor, or the system call. -/
inductive Action
  | printf (fd : Nat) (format : String) (args : List Arg)
  | chmod (path : List UInt8) (mode : Int)
  deriving DecidableEq

def usage : List Action :=
  [.printf 2 "Usage: chmod <mode> <file...>\n" [],
    .printf 2 "Example: chmod 755 myfile\n" [],
    .printf 2 "         chmod 644 file1 file2\n" []]

def invalid (str : List UInt8) : List Action :=
  [.printf 2 "chmod: invalid mode '%s'\n" [.string str]]

/-- The loop over the files; `answers` are the results of the system calls. -/
def chmodFiles (mode : Int) (answers : Nat → Int) : Nat → List (List UInt8) → List Action
  | _, [] => []
  | i, path :: files =>
    .chmod path mode ::
      (if answers i < 0 then
        .printf 2 "chmod: cannot change '%s': Permission denied\n" [.string path]
      else .printf 1 "Changed permissions of '%s' to %o\n" [.string path, .int mode]) ::
      chmodFiles mode answers (i + 1) files

def main (answers : Nat → Int) : List (List UInt8) → List Action
  | _ :: str :: path :: files =>
    let mode := parseMode str
    if mode < 0 ∨ mode > 511 then invalid str else chmodFiles mode answers 2 (path :: files)
  | _ => usage

section Modes

def Digits (str : List UInt8) : Prop := ∀ c ∈ str, 48 ≤ c.toNat ∧ c.toNat ≤ 55

/-- The number an octal numeral denotes. -/
def value (str : List UInt8) : Nat := Nat.ofDigits 8 (str.reverse.map fun c => c.toNat - 48)

/-- The string is an octal numeral of the mode `m`. -/
structure Octal (str : List UInt8) (m : Int) : Prop where
  nonempty : str ≠ []
  digits : Digits str
  denotes : m = value str
  small : m ≤ 511

theorem toChar_digit (c : UInt8) :
    (toChar c < 48 ∨ toChar c > 55) ↔ ¬ (48 ≤ c.toNat ∧ c.toNat ≤ 55) := by
  have byte : c.toNat < 256 := c.toNat_lt
  rw [toChar]
  split <;> omega

theorem value_concat (str : List UInt8) (c : UInt8) :
    value (str ++ [c]) = c.toNat - 48 + 8 * value str := by
  simp only [value, List.reverse_append, List.reverse_singleton, List.singleton_append,
    List.map_cons, Nat.ofDigits_cons]

theorem toInt_digit {c : UInt8} (v : Nat) (digit : 48 ≤ c.toNat ∧ c.toNat ≤ 55) :
    toInt (toInt (toInt v * 8) + (toChar c - 48)) = toInt ((c.toNat - 48 + 8 * v : Nat) : Int) := by
  have char : toChar c = c.toNat := if_pos (by omega)
  have digits : ((c.toNat - 48 + 8 * v : Nat) : Int) = v * 8 + (c.toNat - 48) := by omega
  rw [char, digits]
  simp only [toInt, Int.bmod_add_bmod, Int.bmod_mul_bmod]

/-- The loop keeps the value of the digits read so far, up to the wrap. -/
theorem parseModeLoop_eq (read str : List UInt8) (text : 0 ∉ str) (digits : Digits str) :
    parseModeLoop (toInt (value read)) str = toInt (value (read ++ str)) := by
  induction str generalizing read with
  | nil => rw [parseModeLoop, List.append_nil]
  | cons c str ih =>
    rw [List.mem_cons, not_or] at text
    obtain ⟨digit, digits⟩ := List.forall_mem_cons.mp digits
    rw [parseModeLoop, if_neg (Ne.symm text.1),
      if_neg (mt (toChar_digit c).mp (not_not_intro digit)),
      toInt_digit _ digit, ← value_concat, ih _ text.2 digits, List.append_assoc,
      List.singleton_append]

theorem parseModeLoop_stray (mode : Int) (str : List UInt8) (text : 0 ∉ str)
    (stray : ¬ Digits str) :
    parseModeLoop mode str = -1 := by
  induction str generalizing mode with
  | nil => exact (stray nofun).elim
  | cons c str ih =>
    rw [List.mem_cons, not_or] at text
    rw [parseModeLoop, if_neg (Ne.symm text.1)]
    split
    · rfl
    · rename_i digit
      rw [toChar_digit, not_not] at digit
      apply ih _ text.2
      intro digits
      exact stray (List.forall_mem_cons.mpr ⟨digit, digits⟩)

/-- The strings the program takes: octal numerals, the empty one too, whose value is small
once it has wrapped. -/
theorem parseMode_accepts {str : List UInt8} (text : 0 ∉ str) (m : Int) :
    (¬ (parseMode str < 0 ∨ parseMode str > 511) ∧ m = parseMode str) ↔
      Digits str ∧ value str % 2 ^ 32 ≤ 511 ∧ m = ((value str % 2 ^ 32 : Nat) : Int) := by
  by_cases digits : Digits str
  · have wrapped : parseMode str = toInt (value str) := parseModeLoop_eq [] str text digits
    grind [toInt, Int.bmod_def]
  · rw [parseMode, parseModeLoop_stray 0 str text digits]
    simp [digits]

-- the numeral 40000000755 wraps to 0755
example : parseMode [52, 48, 48, 48, 48, 48, 48, 48, 55, 53, 53] = 493 := by decide +kernel

theorem mem_chmodFiles {mode m : Int} {answers : Nat → Int} {p : List UInt8} {i : Nat}
    {files : List (List UInt8)} :
    .chmod p m ∈ chmodFiles mode answers i files ↔ p ∈ files ∧ m = mode := by
  induction files generalizing i with
  | nil => simp [chmodFiles]
  | cons path files ih =>
    grind [chmodFiles, Action.chmod.injEq]

end Modes

section Program

variable (answers : Nat → Int) (name str path : List UInt8) (files : List (List UInt8))

/-- The program calls `chmod` with exactly the mode its argument denotes, and reports every
other argument. -/
structure Exact : Prop where
  calls : ∀ m, (∃ p, .chmod p m ∈ main answers (name :: str :: path :: files)) ↔ Octal str m
  reports : (∀ m, ¬ Octal str m) → main answers (name :: str :: path :: files) = invalid str

theorem main_calls (m : Int) (text : 0 ∉ str) :
    (∃ p, .chmod p m ∈ main answers (name :: str :: path :: files)) ↔
      Digits str ∧ value str % 2 ^ 32 ≤ 511 ∧ m = ((value str % 2 ^ 32 : Nat) : Int) := by
  rw [← parseMode_accepts text]
  simp only [main]
  split
  · rename_i rejected
    simp [invalid, rejected]
  · rename_i accepted
    simp only [mem_chmodFiles, accepted, not_false_eq_true, true_and, exists_and_right,
      and_iff_right_iff_imp]
    exact fun _ => ⟨path, List.mem_cons_self⟩

/-- Modes are parsed exactly unless the argument is empty or is a numeral above 0777 that wraps
to one that is not. -/
theorem main_exact_iff (text : 0 ∉ str) : Exact answers name str path files ↔
      ¬ (str = [] ∨ (Digits str ∧ 511 < value str ∧ value str % 2 ^ 32 ≤ 511)) := by
  have called (m : Int) := main_calls answers name str path files m text
  constructor
  · rintro exact (empty | ⟨digits, large, wraps⟩)
    · have zero := (exact.calls 0).mp ((called 0).mpr
        (by subst empty; exact ⟨nofun, by decide, rfl⟩))
      exact zero.nonempty empty
    · have mode := (exact.calls _).mp ((called _).mpr ⟨digits, wraps, rfl⟩)
      have denotes := mode.denotes
      omega
  · intro clear
    rw [not_or] at clear
    have calls (m : Int) : (∃ p, .chmod p m ∈ main answers (name :: str :: path :: files)) ↔
      Octal str m := by
      rw [called]
      constructor
      · rintro ⟨digits, wraps, same⟩
        have small : value str ≤ 511 := by
          by_contra large
          exact clear.2 ⟨digits, by omega, wraps⟩
        exact ⟨clear.1, digits, by omega, by omega⟩
      · intro octal
        have denotes := octal.denotes
        have small := octal.small
        exact ⟨octal.digits, by omega, by omega⟩
    refine ⟨calls, fun unread => ?_⟩
    simp only [main]
    split
    · rfl
    · rename_i accepted
      have mode := (called _).mpr ((parseMode_accepts text _).mp ⟨accepted, rfl⟩)
      exact absurd ((calls _).mp mode) (unread _)

end Program

/-- The empty argument is taken as mode 0. -/
theorem main_exact_unread :
    ¬ ∀ (answers : Nat → Int) (name str path : List UInt8) (files : List (List UInt8)), 0 ∉ str →
      Exact answers name str path files := by
  intro exact
  have empty := (exact (fun _ => 0) [] [] [102] [] (by decide)).calls 0
  exact (empty.mp ⟨[102], by decide⟩).nonempty rfl

theorem main_exact_755 : Exact (fun _ => 0) [] [55, 53, 53] [102] [] ↔
      ¬ ([55, 53, 53] = ([] : List UInt8) ∨
        (Digits [55, 53, 53] ∧ 511 < value [55, 53, 53] ∧ value [55, 53, 53] % 2 ^ 32 ≤ 511)) :=
  main_exact_iff (fun _ => 0) [] [55, 53, 53] [102] [] (by decide)

end Xv6.Chmod
