/-
**Numbers in decimal form.**

`std::to_string` writes the decimal digits of a number, and the streams do; `strtoul` and `operator>>` read digits back.

* `toStr_injective`, `isDigit_of_mem_toStr` — different numbers have different texts, and they are digits.
* `strtoul_toStr`, `readNumber_toStr` — what was written is read back.
-/

import MathWebSearch.Types.Query

namespace MathWebSearch

/-! ### Texts of numbers -/

theorem toStr_injective : Function.Injective toStr := by
  intro number number' same
  rw [← Nat.ofDigitChars_ten_toDigits (n := number), ← Nat.ofDigitChars_ten_toDigits (n := number')]
  exact congrArg (Nat.ofDigitChars 10 · 0) same

theorem isDigit_of_mem_toStr {number : Nat} {c : Char} (member : c ∈ toStr number) : c.isDigit :=
  Nat.isDigit_of_mem_toDigits (by decide) (by decide) member

/-- Only the text of zero begins with a zero. -/
theorem toStr_cases (number : Nat) : toStr number = ['0'] ∨ ∃ c rest, toStr number = c :: rest ∧ c ≠ '0' := by
  induction number using Nat.strong_induction_on with
  | _ number ih =>
    rcases Nat.lt_or_ge number 10 with small | large
    · rw [toStr, Nat.toDigits_of_lt_base small]
      rcases Nat.eq_zero_or_pos number with rfl | positive
      · exact .inl rfl
      · refine .inr ⟨_, [], rfl, ?_⟩
        interval_cases number <;> decide
    · have split : toStr number = toStr (number / 10) ++ [Nat.digitChar (number % 10)] :=
        Nat.toDigits_of_base_le (by decide) large
      rcases ih (number / 10) (by omega) with zero | ⟨c, rest, starts, nonzero⟩
      · have tooSmall : number / 10 = 0 := @toStr_injective _ 0 zero
        omega
      · exact .inr ⟨c, rest ++ [Nat.digitChar (number % 10)], by rw [split, starts]; rfl, nonzero⟩

theorem isspace_of_isDigit {c : Char} (digit : c.isDigit) : isspace c = false := by
  have bounds := digit
  rw [Char.isDigit, Bool.and_eq_true, decide_eq_true_iff, decide_eq_true_iff] at bounds
  have low : 48 ≤ c.toNat := UInt32.le_iff_toNat_le.mp bounds.1
  have other : ∀ space : Char, space.toNat < 48 → decide (c = space) = false := by
    rintro space small
    refine decide_eq_false fun same => ?_
    rw [same] at low
    omega
  rw [isspace, other ' ' (by decide), other '\t' (by decide), other '\n' (by decide), other '\r' (by decide),
    decide_eq_false (by omega), decide_eq_false (by omega)]
  rfl

/-! ### `strtoul` -/

/-- The value of a letter or digit in the bases up to 36. -/
def digitValue (c : Char) : Nat :=
  if c.isDigit then c.toNat - '0'.toNat
  else if c.isLower then c.toNat - 'a'.toNat + 10
  else if c.isUpper then c.toNat - 'A'.toNat + 10
  else 36

/-- The number that a text begins with, without bound. -/
def digitsNumber (base : Nat) (text : Str) : Nat :=
  (text.takeWhile fun c => digitValue c < base).foldl (fun number c => base * number + digitValue c) 0

/-- The number that a text begins with when its form gives the base: `0x` stands for 16 and `0` for 8. -/
def autoNumber : Str → Nat
  | '0' :: mark :: digit :: rest =>
    if (mark = 'x' ∨ mark = 'X') ∧ digitValue digit < 16 then digitsNumber 16 (digit :: rest)
    else digitsNumber 8 (mark :: digit :: rest)
  | '0' :: rest => digitsNumber 8 rest
  | text => digitsNumber 10 text

/-- `ULONG_MAX`. -/
def ulongMax : Nat := 2 ^ 64 - 1

/-- `strtoul` with base 0: what is too large gives `ULONG_MAX`, and a minus negates. -/
def strtoul (text : Str) : Nat :=
  match text.dropWhile isspace with
  | '-' :: rest =>
    if ulongMax < autoNumber rest then ulongMax else (2 ^ 64 - autoNumber rest) % 2 ^ 64
  | '+' :: rest => min ulongMax (autoNumber rest)
  | rest => min ulongMax (autoNumber rest)

theorem digitValue_of_isDigit {c : Char} (digit : c.isDigit) : digitValue c = c.toNat - '0'.toNat := if_pos digit

theorem digitValue_lt_of_isDigit {c : Char} (digit : c.isDigit) : digitValue c < 10 := by
  have bounds := digit
  rw [Char.isDigit, Bool.and_eq_true, decide_eq_true_iff, decide_eq_true_iff] at bounds
  have high : c.toNat ≤ 57 := UInt32.le_iff_toNat_le.mp bounds.2
  have zero : '0'.toNat = 48 := rfl
  rw [digitValue_of_isDigit digit]
  omega

/-- A text of digits is the number it writes. -/
theorem digitsNumber_toStr (number : Nat) : digitsNumber 10 (toStr number) = number := by
  have all : (toStr number).takeWhile (fun c => digitValue c < 10) = toStr number := by
    refine List.takeWhile_eq_self_iff.mpr fun c member => ?_
    exact decide_eq_true (digitValue_lt_of_isDigit (isDigit_of_mem_toStr member))
  have folded : ∀ (text : Str), (∀ c ∈ text, c.isDigit) → ∀ start,
      text.foldl (fun number c => 10 * number + digitValue c) start = Nat.ofDigitChars 10 text start := by
    intro text digits
    induction text with
    | nil => intro start; rfl
    | cons c rest ih =>
      intro start
      rw [List.foldl_cons, Nat.ofDigitChars_cons, digitValue_of_isDigit (digits c List.mem_cons_self)]
      exact ih (fun other member => digits other (List.mem_cons_of_mem _ member)) _
  rw [digitsNumber, all, folded _ (fun c member => isDigit_of_mem_toStr member) 0]
  exact Nat.ofDigitChars_ten_toDigits

/-- `strtoul` reads what `to_string` wrote: a number without leading zeros is decimal. -/
theorem strtoul_toStr {number : Nat} (small : number < 2 ^ 64) : strtoul (toStr number) = number := by
  have value := digitsNumber_toStr number
  have digits : ∀ c ∈ toStr number, c.isDigit := fun c member => isDigit_of_mem_toStr member
  have fits : number ≤ ulongMax := by rw [ulongMax]; omega
  rcases toStr_cases number with zero | ⟨c, rest, starts, nonzero⟩
  · obtain rfl : number = 0 := toStr_injective zero
    rfl
  · rw [starts] at value digits ⊢
    have digit : c.isDigit := digits c List.mem_cons_self
    have notSpace : isspace c = false := isspace_of_isDigit digit
    have minus : c ≠ '-' := by rintro rfl; exact absurd digit (by decide)
    have plus : c ≠ '+' := by rintro rfl; exact absurd digit (by decide)
    have decimal : autoNumber (c :: rest) = number := by
      unfold autoNumber
      split
      · exact absurd (List.cons.inj ‹_›).1 nonzero
      · exact absurd (List.cons.inj ‹_›).1 nonzero
      · exact value
    rw [strtoul, List.dropWhile_cons_of_neg (by simp [notSpace])]
    split
    · exact absurd (List.cons.inj ‹_›).1 minus
    · exact absurd (List.cons.inj ‹_›).1 plus
    · rw [decimal]
      exact Nat.min_eq_right fits

/-! ### `operator>>` -/

/-- Reading a number from a stream: white space is skipped, and there has to be a digit. What is left is returned. -/
def readNumber (serial : Str) : Option (Nat × Str) :=
  let text := serial.dropWhile isspace
  if text.takeWhile Char.isDigit = [] then none else some (digitsValue text, text.dropWhile Char.isDigit)

theorem takeWhile_isDigit_toStr (number : Nat) {rest : Str} (ends : ∀ c ∈ rest.head?, c.isDigit = false) :
    (toStr number ++ rest).takeWhile Char.isDigit = toStr number := by
  rw [List.takeWhile_append_of_pos fun c member => isDigit_of_mem_toStr member]
  cases rest with
  | nil => exact List.append_nil _
  | cons c rest => rw [List.takeWhile_cons_of_neg (by simp [ends c rfl]), List.append_nil]

theorem dropWhile_isDigit_toStr (number : Nat) {rest : Str} (ends : ∀ c ∈ rest.head?, c.isDigit = false) :
    (toStr number ++ rest).dropWhile Char.isDigit = rest := by
  rw [List.dropWhile_append_of_pos fun c member => isDigit_of_mem_toStr member]
  cases rest with
  | nil => rfl
  | cons c rest => exact List.dropWhile_cons_of_neg (by simp [ends c rfl])

/-- A number that no digit follows is read back. -/
theorem readNumber_toStr (number : Nat) {rest : Str} (ends : ∀ c ∈ rest.head?, c.isDigit = false) :
    readNumber (toStr number ++ rest) = some (number, rest) := by
  have nonempty : toStr number ≠ [] := by
    rcases toStr_cases number with zero | ⟨c, others, starts, -⟩
    · rw [zero]
      exact List.cons_ne_nil _ _
    · rw [starts]
      exact List.cons_ne_nil _ _
  have noSpace : (toStr number ++ rest).dropWhile isspace = toStr number ++ rest := by
    obtain ⟨c, others, starts⟩ := List.exists_cons_of_ne_nil nonempty
    have member : c ∈ toStr number := starts ▸ List.mem_cons_self
    have digit : c.isDigit := isDigit_of_mem_toStr member
    rw [starts, List.cons_append]
    exact List.dropWhile_cons_of_neg (by simp [isspace_of_isDigit digit])
  have value : digitsValue (toStr number ++ rest) = number := by
    rw [digitsValue, takeWhile_isDigit_toStr number ends]
    exact Nat.ofDigitChars_ten_toDigits
  rw [readNumber, noSpace, takeWhile_isDigit_toStr number ends, if_neg nonempty, value,
    dropWhile_isDigit_toStr number ends]

/-- The number is a `uint32_t`: one that is too large is a failure. -/
def readUint32 (serial : Str) : Option (Nat × Str) := (readNumber serial).filter fun read => read.1 < 2 ^ 32

/-- A number behind a blank. -/
theorem readNumber_blank (number : Nat) {rest : Str} (ends : ∀ c ∈ rest.head?, c.isDigit = false) :
    readNumber (' ' :: toStr number ++ rest) = some (number, rest) := by
  rw [← readNumber_toStr number ends, readNumber, readNumber, List.cons_append, List.dropWhile_cons_of_pos (by decide)]

theorem readUint32_blank {number : Nat} (small : number < 2 ^ 32) {rest : Str}
    (ends : ∀ c ∈ rest.head?, c.isDigit = false) : readUint32 (' ' :: toStr number ++ rest) = some (number, rest) := by
  rw [readUint32, readNumber_blank number ends]
  exact Option.filter_some_pos (decide_eq_true small)

end MathWebSearch
