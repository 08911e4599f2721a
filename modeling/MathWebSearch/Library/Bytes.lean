/-
**Byte images: little-endian words written at an offset and read back.**

* `word width value` — the `width` bytes of `value`, least significant first.
* `readWord image address width` — the word at `address`, `none` outside the image.
* `Holds image address bytes` — the image carries `bytes` at `address`. Closed under appending to the
  image (`Holds.append_right`), so that a record stays where it was written when more is written.
* `readWord_of_holds` — a word reads back as itself wherever the image carries it.
* `Holds.flatMap` — a table of records of one width.
* `memcmp` — the order of byte strings, lexicographic on unsigned bytes.
-/

import Mathlib

namespace Bytes

/-- The `width` low bytes of `value`, least significant first. -/
def word : Nat → Nat → List UInt8
  | 0, _ => []
  | width + 1, value => UInt8.ofNat value :: word width (value / 256)

/-- The number a little-endian byte string stands for. -/
def number : List UInt8 → Nat
  | [] => 0
  | byte :: rest => byte.toNat + 256 * number rest

/-- The word of `width` bytes at `address`; `none` when it does not lie inside the image. -/
def readWord (image : List UInt8) (address width : Nat) : Option Nat :=
  if address + width ≤ image.length then some (number ((image.drop address).take width)) else none

/-- A 32-bit word read as a signed number. -/
def toInt32 (value : Nat) : Int :=
  if value % 2 ^ 32 < 2 ^ 31 then ((value % 2 ^ 32 : Nat) : Int) else ((value % 2 ^ 32 : Nat) : Int) - 2 ^ 32

theorem toInt32_of_lt {value : Nat} (small : value < 2 ^ 31) : toInt32 value = value := by
  rw [toInt32, Nat.mod_eq_of_lt (by omega), if_pos small]

/-- The comparison of two byte strings by `memcmp`. -/
def memcmp (first second : List UInt8) : Ordering := List.compareLex compare first second

@[simp] theorem length_word (width value : Nat) : (word width value).length = width := by
  induction width generalizing value with
  | zero => rfl
  | succ width ih => simp [word, ih]

/-- The low and the high part of a word. -/
theorem word_add (low high value : Nat) : word (low + high) value = word low value ++ word high (value / 256 ^ low) := by
  induction low generalizing value with
  | zero => rw [Nat.zero_add, pow_zero, Nat.div_one, word, List.nil_append]
  | succ low ih => rw [Nat.succ_add, word, word, ih, List.cons_append, Nat.div_div_eq_div_mul, pow_succ']

/-- A word stands for its value, truncated to its width. -/
theorem number_word (width value : Nat) : number (word width value) = value % 256 ^ width := by
  induction width generalizing value with
  | zero => simp [word, number, Nat.mod_one]
  | succ width ih =>
    have low : (UInt8.ofNat value).toNat = value % 256 := by simp
    rw [word, number, ih, low, pow_succ', Nat.mod_mul]

theorem number_word_of_lt {width value : Nat} (small : value < 256 ^ width) :
    number (word width value) = value := by
  rw [number_word, Nat.mod_eq_of_lt small]

/-- Words of values that fit determine the values. -/
theorem word_injective {width first second : Nat} (smallFirst : first < 256 ^ width)
    (smallSecond : second < 256 ^ width) (same : word width first = word width second) :
    first = second := by
  rw [← number_word_of_lt smallFirst, same, number_word_of_lt smallSecond]

/-! ### What an image carries -/

/-- The image carries `bytes` at `address`. -/
def Holds (image : List UInt8) (address : Nat) (bytes : List UInt8) : Prop :=
  (image.drop address).take bytes.length = bytes ∧ address + bytes.length ≤ image.length

theorem holds_append (front bytes back : List UInt8) :
    Holds (front ++ bytes ++ back) front.length bytes := by
  refine ⟨?_, by simp⟩
  rw [List.append_assoc, List.drop_left, List.take_left]

theorem Holds.append_right {image bytes : List UInt8} {address : Nat}
    (holds : Holds image address bytes) (more : List UInt8) :
    Holds (image ++ more) address bytes := by
  refine ⟨?_, by have := holds.2; simp only [List.length_append]; omega⟩
  rw [List.drop_append_of_le_length (by have := holds.2; omega),
    List.take_append_of_le_length (by rw [List.length_drop]; have := holds.2; omega)]
  exact holds.1

/-- A carried concatenation carries its parts, one behind the other. -/
theorem Holds.split {image first second : List UInt8} {address : Nat}
    (holds : Holds image address (first ++ second)) :
    Holds image address first ∧ Holds image (address + first.length) second := by
  obtain ⟨same, inside⟩ := holds
  rw [List.length_append] at same inside
  have front := congrArg (List.take first.length) same
  have back := congrArg (List.drop first.length) same
  rw [List.take_take, min_eq_left (by omega), List.take_left] at front
  rw [List.drop_take, List.drop_drop, Nat.add_sub_cancel_left, List.drop_left] at back
  exact ⟨⟨front, by omega⟩, ⟨back, by omega⟩⟩

/-- **Records of one width, one behind the other**: each stands at its multiple of the width. -/
theorem Holds.flatMap {α : Type} {image : List UInt8} {address width : Nat} {records : List α}
    {bytes : α → List UInt8} (uniform : ∀ record, (bytes record).length = width)
    (holds : Holds image address (records.flatMap bytes)) {number : Nat} {record : α}
    (found : records[number]? = some record) : Holds image (address + width * number) (bytes record) := by
  induction records generalizing address number with
  | nil => cases found
  | cons head rest ih =>
    rw [List.flatMap_cons] at holds
    cases number with
    | zero =>
      obtain rfl := Option.some.inj found
      exact holds.split.1
    | succ number =>
      have later := ih holds.split.2 found
      rw [uniform, Nat.add_assoc, Nat.add_comm width, ← Nat.mul_succ] at later
      exact later

/-- **A word reads back wherever the image carries it.** -/
theorem readWord_of_holds {image : List UInt8} {address width value : Nat}
    (holds : Holds image address (word width value)) :
    readWord image address width = some (value % 256 ^ width) := by
  obtain ⟨same, inside⟩ := holds
  rw [length_word] at same inside
  rw [readWord, if_pos inside, same, number_word]

theorem readWord_of_holds_of_lt {image : List UInt8} {address width value : Nat}
    (holds : Holds image address (word width value)) (small : value < 256 ^ width) :
    readWord image address width = some value := by
  rw [readWord_of_holds holds, Nat.mod_eq_of_lt small]

/-! ### The order of byte strings -/

instance : Std.TransCmp memcmp := inferInstanceAs (Std.TransCmp (List.compareLex compare))

instance : Std.LawfulEqCmp memcmp := inferInstanceAs (Std.LawfulEqCmp (List.compareLex compare))

end Bytes
