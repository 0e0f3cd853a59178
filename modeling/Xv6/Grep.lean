import Mathlib.Computability.Language
import Xv6.CString

/- The matcher of grep.c. A pointer is the string it points to, and `int` results are `Bool`,
1 being `true`. A call is given a depth to recurse to, and has no result if that is too little. -/
namespace Xv6.Grep

open CString (deref)

/-- `if(found) return 1;` and then the rest. -/
def unlessFound (found rest : Option Bool) : Option Bool :=
  match found with
  | none => none
  | some true => some true
  | some false => rest

mutual

def matchhere : Nat → List UInt8 → List UInt8 → Option Bool
  | 0, _, _ => none
  | depth + 1, re, text =>
    if deref re = 0 then some true
    else if deref re.tail = 42 then matchstar depth (deref re) re.tail.tail text
    else if deref re = 36 ∧ deref re.tail = 0 then some (deref text == 0)
    else if deref text ≠ 0 ∧ (deref re = 46 ∨ deref re = deref text) then matchhere depth
      re.tail text.tail
    else some false

def matchstar : Nat → UInt8 → List UInt8 → List UInt8 → Option Bool
  | 0, _, _, _ => none
  | depth + 1, c, re, text =>
    unlessFound (matchhere depth re text)
      (if deref text ≠ 0 ∧ (deref text = c ∨ c = 46) then matchstar depth c re text.tail
      else some false)

end

/-- The loop of `match`. -/
def matchLoop : Nat → List UInt8 → List UInt8 → Option Bool
  | 0, _, _ => none
  | depth + 1, re, text =>
    unlessFound (matchhere depth re text) (if deref text ≠ 0 then matchLoop depth re text.tail
      else some false)

/-- The function `match`. -/
def matchText (depth : Nat) (re text : List UInt8) : Option Bool :=
  if deref re = 94 then matchhere depth re.tail text else matchLoop depth re text

section Languages

variable {c : UInt8} {closed : Bool} {text : List UInt8} {l : Language UInt8}

/-- A pattern read from left to right is a sequence of these: a character, and a character with
a star. -/
inductive Item
  | one (c : UInt8)
  | many (c : UInt8)

/-- The items of a pattern, and whether it ends in the anchor `$`. -/
def parse : List UInt8 → List Item × Bool
  | [] => ([], false)
  | [c] => if c = 36 then ([], true) else ([.one c], false)
  | c :: d :: re =>
    if d = 42 then (.many c :: (parse re).1, (parse re).2)
    else (.one c :: (parse (d :: re)).1, (parse (d :: re)).2)

/-- The words of one character that `c` stands for: itself, or any if it is `.`. -/
def letter (c : UInt8) : Language UInt8 := {word | ∃ x, (c = 46 ∨ x = c) ∧ word = [x]}

def Item.language : Item → Language UInt8
  | .one c => letter c
  | .many c => KStar.kstar (letter c)

def language (items : List Item) : Language UInt8 := (items.map Item.language).prod

/-- The text begins with a word of the pattern, and is one if the pattern ends in `$`. -/
def Here (pattern : List Item × Bool) (text : List UInt8) : Prop :=
  ∃ word rest, text = word ++ rest ∧ word ∈ language pattern.1 ∧ (pattern.2 = true → rest = [])

def pattern (re : List UInt8) :
    List Item × Bool := parse (if re.head? = some 94 then re.tail else re)

/-- The text has a word of the pattern in it, at the start if the pattern begins with `^` and
at the end if it ends in `$`. -/
def Found (re text : List UInt8) : Prop :=
  ∃ first word rest, text = first ++ (word ++ rest) ∧ word ∈ language (pattern re).1 ∧
    (re.head? = some 94 → first = []) ∧ ((pattern re).2 = true → rest = [])

theorem mem_letter_mul {word : List UInt8} :
    word ∈ letter c * l ↔ ∃ x tail, word = x :: tail ∧ (c = 46 ∨ x = c) ∧ tail ∈ l := by
  constructor
  · rintro ⟨_, ⟨x, stands, rfl⟩, tail, inside, rfl⟩
    exact ⟨x, tail, rfl, stands, inside⟩
  · rintro ⟨x, tail, rfl, stands, inside⟩
    exact ⟨[x], ⟨x, stands, rfl⟩, tail, inside, rfl⟩

/-- Reading one character: the rest of the text begins with a word of the rest of the pattern. -/
theorem begins_letter_mul :
    (∃ word rest, text = word ++ rest ∧ word ∈ letter c * l ∧ (closed = true → rest = [])) ↔
      ∃ x tail, text = x :: tail ∧ (c = 46 ∨ x = c) ∧
        ∃ word rest, tail = word ++ rest ∧ word ∈ l ∧ (closed = true → rest = []) := by
  constructor
  · rintro ⟨_, rest, rfl, read, ends⟩
    obtain ⟨x, word, rfl, stands, inside⟩ := mem_letter_mul.mp read
    exact ⟨x, word ++ rest, rfl, stands, word, rest, rfl, inside, ends⟩
  · grind [mem_letter_mul]

theorem here_nil : Here ([], closed) text ↔ (closed = true → text = []) := by
  constructor
  · rintro ⟨_, rest, rfl, rfl, ends⟩
    exact ends
  · intro ends
    exact ⟨[], text, rfl, rfl, ends⟩

theorem here_one {items : List Item} : Here (.one c :: items, closed) text ↔
      ∃ x tail, text = x :: tail ∧ (c = 46 ∨ x = c) ∧ Here (items, closed) tail := begins_letter_mul

theorem here_many {items : List Item} :
    Here (.many c :: items, closed) text ↔ Here (items, closed) text ∨
      ∃ x tail, text = x :: tail ∧ (c = 46 ∨ x = c) ∧ Here (.many c :: items, closed) tail := by
  have unfolded : language (.many c :: items) = language items + letter c * language
    (.many c :: items) := by
    simp only [language, List.map_cons, List.prod_cons, Item.language]
    nth_rewrite 1 [← Language.one_add_self_mul_kstar_eq_kstar]
    rw [add_mul, one_mul, mul_assoc]
  conv_lhs => rw [Here, unfolded]
  simp only [Language.mem_add, or_and_right, and_or_left, exists_or, begins_letter_mul]
  rfl

end Languages

section Matching

variable {p q : Prop}

/-- The call returns, and with 1 exactly where the property holds. -/
def Answers (result : Option Bool) (property : Prop) : Prop :=
  ∃ answer, result = some answer ∧ (answer = true ↔ property)

variable {depth : Nat} {c : UInt8} {re text : List UInt8}

theorem Answers.congr {result : Option Bool} (answers : Answers result p) (same : p ↔ q) :
    Answers result q := by
  obtain ⟨answer, returned, holds⟩ := answers
  exact ⟨answer, returned, holds.trans same⟩

theorem answers_true (holds : p) : Answers (some true) p := ⟨true, rfl, iff_of_true rfl holds⟩

theorem answers_false (fails : ¬ p) :
    Answers (some false) p := ⟨false, rfl, iff_of_false Bool.false_ne_true fails⟩

theorem deref_eq_zero (text : List UInt8) (line : 0 ∉ text) : deref text = 0 ↔ text = [] := by
  cases text with
  | nil => exact iff_of_true rfl rfl
  | cons x tail =>
    rw [List.mem_cons, not_or] at line
    exact iff_of_false (Ne.symm line.1) (List.cons_ne_nil x tail)

theorem Answers.unlessFound {found rest : Option Bool} (first : Answers found p)
    (second : Answers rest q) :
    Answers (unlessFound found rest) (p ∨ q) := by
  obtain ⟨answer, rfl, holds⟩ := first
  cases answer with
  | true => exact answers_true (.inl (holds.mp rfl))
  | false => exact second.congr (or_iff_right fun h => Bool.false_ne_true (holds.mpr h)).symm

/-- Going on by one character of the text, if there is one and it is as asked. -/
theorem answers_next {guard : Prop} [Decidable guard] {onward : Option Bool} {stands : UInt8 → Prop}
    {more : List UInt8 → Prop} (line : 0 ∉ text)
    (asked : guard ↔ deref text ≠ 0 ∧ stands (deref text))
    (next : ∀ x tail, text = x :: tail → Answers onward (more tail)) :
    Answers (if guard then onward else some false) (∃ x tail, text = x :: tail ∧ stands x ∧
      more tail) := by
  cases text with
  | nil =>
    rw [if_neg (fun holds => (asked.mp holds).1 rfl)]
    exact answers_false (by simp)
  | cons x tail =>
    rw [List.mem_cons, not_or] at line
    split
    · rename_i holds
      apply (next x tail rfl).congr
      constructor
      · intro found
        exact ⟨x, tail, rfl, (asked.mp holds).2, found⟩
      · simp
    · rename_i fails
      apply answers_false
      rintro ⟨_, _, ⟨⟩, stand, _⟩
      exact fails (asked.mpr ⟨Ne.symm line.1, stand⟩)

/-- What both functions answer, of which one calls the other, up to a depth. -/
structure Matches (depth : Nat) : Prop where
  here : ∀ re text, 0 ∉ re → 0 ∉ text → re.length + text.length < depth →
    Answers (matchhere depth re text) (Here (parse re) text)
  star : ∀ c re text, 0 ∉ re → 0 ∉ text → re.length + text.length + 1 < depth →
    Answers (matchstar depth c re text) (Here (.many c :: (parse re).1, (parse re).2) text)

theorem Matches.matchstar (below : Matches depth) (pattern : 0 ∉ re) (line : 0 ∉ text)
    (deep : re.length + text.length + 1 < depth + 1) :
    Answers (matchstar (depth + 1) c re text)
      (Here (.many c :: (parse re).1, (parse re).2) text) := by
  rw [Grep.matchstar, here_many]
  apply (below.here re text pattern line (by omega)).unlessFound
  apply answers_next line (by rw [or_comm])
  grind [List.length_cons, star, List.mem_cons_of_mem]

theorem Matches.one (below : Matches depth) (pattern : 0 ∉ re) (line : 0 ∉ text)
    (deep : re.length + text.length < depth + 1) :
    Answers (if deref text ≠ 0 ∧ (c = 46 ∨ c = deref text) then matchhere depth re text.tail
      else some false) (Here (.one c :: (parse re).1, (parse re).2) text) := by
  rw [here_one]
  apply answers_next line (by rw [eq_comm (a := c) (b := deref text)])
  grind [List.length_cons, here, List.mem_cons_of_mem]

theorem matchhere_cons (c : UInt8) (re : List UInt8) : matchhere (depth + 1) (c :: re) text =
      if c = 0 then some true else if deref re = 42 then matchstar depth c re.tail text
      else if c = 36 ∧ deref re = 0 then some (deref text == 0)
      else if deref text ≠ 0 ∧ (c = 46 ∨ c = deref text) then matchhere depth re text.tail
      else some false := by
  rfl

theorem Matches.matchhere (below : Matches depth) (pattern : 0 ∉ re) (line : 0 ∉ text)
    (deep : re.length + text.length < depth + 1) :
    Answers (matchhere (depth + 1) re text) (Here (parse re) text) := by
  match re with
  | [] => exact answers_true (here_nil.mpr (by simp))
  | [c] =>
    rw [List.mem_singleton] at pattern
    rw [matchhere_cons, if_neg (Ne.symm pattern), if_neg (by decide), parse]
    by_cases last : c = 36
    · rw [if_pos last, if_pos ⟨last, rfl⟩]
      refine ⟨_, rfl, ?_⟩
      rw [beq_iff_eq, deref_eq_zero text line, here_nil]
      simp
    · rw [if_neg last, if_neg (fun both => last both.1)]
      exact below.one List.not_mem_nil line (by rw [List.length_nil]; omega)
  | c :: d :: re =>
    rw [List.mem_cons, not_or] at pattern
    rw [List.length_cons] at deep
    rw [matchhere_cons, if_neg (Ne.symm pattern.1), parse]
    by_cases star : d = 42
    · grind [deref, List.length_cons, star, List.mem_cons_of_mem]
    · have more : deref (d :: re) ≠ 0 := fun zero => pattern.2 (zero ▸ List.mem_cons_self)
      rw [if_neg star, if_neg (show ¬ deref (d :: re) = 42 from star),
        if_neg (fun both => more both.2)]
      exact below.one pattern.2 line (by omega)

theorem matches_all (depth : Nat) : Matches depth := by
  induction depth with
  | zero => exact ⟨fun _ _ _ _ deep => absurd deep (Nat.not_lt_zero _), fun _ _ _ _ _ deep =>
      absurd deep (Nat.not_lt_zero _)⟩
  | succ depth ih => exact ⟨fun _ _ => ih.matchhere, fun _ _ _ => ih.matchstar⟩

theorem matchLoop_answers (pattern : 0 ∉ re) (line : 0 ∉ text)
    (deep : re.length + text.length + 1 < depth) :
    Answers (matchLoop depth re text) (∃ first later, text = first ++ later ∧
      Here (parse re) later) := by
  induction depth generalizing text with
  | zero => omega
  | succ depth ih =>
    have next : Answers (if deref text ≠ 0 then matchLoop depth re text.tail else some false)
        (∃ x tail, text = x :: tail ∧ True ∧ ∃ first later, tail = first ++ later ∧
        Here (parse re) later) := by
      apply answers_next line (by rw [and_true])
      grind
    apply (((matches_all depth).here re text pattern line (by omega)).unlessFound next).congr
    constructor
    · rintro (here | ⟨x, _, rfl, _, first, later, rfl, here⟩)
      · exact ⟨[], text, rfl, here⟩
      · exact ⟨x :: first, later, rfl, here⟩
    · rintro ⟨first, later, rfl, here⟩
      cases first with
      | nil => exact .inl here
      | cons x first => exact .inr ⟨x, first ++ later, rfl, trivial, first, later, rfl, here⟩

theorem matchText_answers (pattern : 0 ∉ re) (line : 0 ∉ text)
    (deep : re.length + text.length + 1 < depth) :
    Answers (matchText depth re text) (Found re text) := by
  have head : deref re = 94 ↔ re.head? = some 94 := by
    cases re <;> simp [deref]
  rw [matchText]
  split
  · rename_i anchored
    rw [head] at anchored
    have less : re.tail.length ≤ re.length := by
      rw [List.length_tail]
      omega
    apply ((matches_all depth).here re.tail text (fun inside =>
      pattern (List.mem_of_mem_tail inside)) line (by omega)).congr
    simp only [Found, Grep.pattern, anchored, true_imp_iff]
    constructor
    · rintro ⟨word, rest, same, inside, ends⟩
      exact ⟨[], word, rest, same, inside, rfl, ends⟩
    · rintro ⟨_, word, rest, same, inside, rfl, ends⟩
      exact ⟨word, rest, same, inside, ends⟩
  · rename_i free
    rw [head] at free
    apply (matchLoop_answers pattern line deep).congr
    simp only [Found, Grep.pattern, free, false_imp_iff, true_and]
    constructor
    · rintro ⟨first, _, rfl, word, rest, rfl, here⟩
      exact ⟨first, word, rest, rfl, here⟩
    · rintro ⟨first, word, rest, rfl, here⟩
      exact ⟨first, _, rfl, word, rest, rfl, here⟩

/-- Answers to one question agree from a depth on. -/
theorem Answers.settled {call : Nat → Option Bool} {bound : Nat}
    (answers : ∀ depth > bound, Answers (call depth) p) :
    ∃ answer, (∀ depth > bound, call depth = some answer) ∧ (answer = true ↔ p) := by
  obtain ⟨answer, _, holds⟩ := answers (bound + 1) (Nat.lt_succ_self bound)
  refine ⟨answer, fun depth deep => ?_, holds⟩
  obtain ⟨other, returned, same⟩ := answers depth deep
  rw [returned, Bool.eq_iff_iff.mpr (same.trans holds.symm)]

/-- `match` returns 1 exactly on a text with a word of the pattern in it, and all three
functions return. -/
theorem matchText_exact (re text : List UInt8) (pattern : 0 ∉ re) (line : 0 ∉ text) :
    (∃ answer, (∀ depth > re.length + text.length + 1, matchText depth re text = some answer) ∧
      (answer = true ↔ Found re text)) ∧
    (∃ answer, ∀ depth > re.length + text.length + 1, matchhere depth re text = some answer) ∧
    (∀ c, ∃ answer, ∀ depth > re.length + text.length + 1, matchstar depth c re text =
      some answer) := by
  refine ⟨Answers.settled fun depth => matchText_answers pattern line, ?_, fun c => ?_⟩
  · obtain ⟨answer, returns, _⟩ := Answers.settled fun depth (deep : depth > re.length +
      text.length + 1) =>
      (matches_all depth).here re text pattern line (by omega)
    exact ⟨answer, returns⟩
  · obtain ⟨answer, returns, _⟩ := Answers.settled fun depth => (matches_all depth).star c re text
      pattern line
    exact ⟨answer, returns⟩

theorem matchText_exact_run :
    (∃ answer, (∀ depth > 5, matchText depth [97, 42] [98, 97] = some answer) ∧
      (answer = true ↔ Found [97, 42] [98, 97])) ∧
    (∃ answer, ∀ depth > 5, matchhere depth [97, 42] [98, 97] = some answer) ∧
    (∀ c, ∃ answer, ∀ depth > 5, matchstar depth c [97, 42] [98, 97] = some answer) :=
  matchText_exact [97, 42] [98, 97] (by decide) (by decide)

end Matching

end Xv6.Grep
