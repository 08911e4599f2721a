/-
**Searching a text for a word.**

`find` gives the first position from some position on at which a word occurs, as `std::string::find` does; a word occurs
at a position if it is a prefix of what is left there.

* `find_eq_some`, `find_eq_none` — what the search says about all positions before the one it finds.
* `itemAt` — reading an item, with the one behind the end.
-/

import Mathlib

namespace MathWebSearch

namespace TextSearch

variable {α : Type}

/-- The word occurs at a position. -/
def Occurs (word text : List α) (pos : Nat) : Prop := word <+: text.drop pos

/-- The item at a position, or the one that stands behind the end. -/
def itemAt (behind : α) (text : List α) (pos : Nat) : Option α := (text ++ [behind])[pos]?

theorem itemAt_of_lt {behind : α} {text : List α} {pos : Nat} (inside : pos < text.length) :
    itemAt behind text pos = some text[pos] := by
  rw [itemAt, List.getElem?_append_left inside, List.getElem?_eq_getElem]

@[simp] theorem itemAt_length (behind : α) (text : List α) : itemAt behind text text.length = some behind := by
  rw [itemAt, List.getElem?_concat_length]

theorem itemAt_eq_none_iff {behind : α} {text : List α} {pos : Nat} : itemAt behind text pos = none ↔ text.length < pos := by
  rw [itemAt, List.getElem?_eq_none_iff, List.length_append, List.length_singleton]
  exact Nat.succ_le_iff

/-- A word that occurs ends inside the text. -/
theorem Occurs.le_length {word text : List α} {pos : Nat} (occurs : Occurs word text pos) (inside : pos ≤ text.length) :
    pos + word.length ≤ text.length := by
  have bound := occurs.length_le
  rw [List.length_drop] at bound
  omega

section Search

variable [DecidableEq α]

instance (word text : List α) (pos : Nat) : Decidable (Occurs word text pos) := inferInstanceAs (Decidable (_ <+: _))

/-- The first position at which the word occurs in a text that starts at `pos`. -/
def search (word : List α) : Nat → List α → Option Nat
  | pos, [] => if word.isPrefixOf [] then some pos else none
  | pos, item :: text => if word.isPrefixOf (item :: text) then some pos else search word (pos + 1) text

/-- The first position from `pos` on at which the word occurs. -/
def find (word text : List α) (pos : Nat) : Option Nat :=
  if pos ≤ text.length then search word pos (text.drop pos) else none

theorem search_of_starts {word text : List α} (here : word <+: text) (pos : Nat) : search word pos text = some pos := by
  have found : word.isPrefixOf text = true := List.isPrefixOf_iff_prefix.mpr here
  cases text with
  | nil => rw [search, if_pos found]
  | cons item text => rw [search, if_pos found]

theorem search_cons {word text : List α} {item : α} (absent : ¬ word <+: item :: text) (pos : Nat) :
    search word pos (item :: text) = search word (pos + 1) text := by
  rw [search, if_neg]
  rwa [List.isPrefixOf_iff_prefix]

theorem search_nil {word : List α} (nonempty : word ≠ []) (pos : Nat) : search word pos [] = none := by
  rw [search, if_neg]
  rwa [List.isPrefixOf_iff_prefix, List.prefix_nil]

/-- Searching from a position on. -/
theorem find_of_le {word text : List α} {pos : Nat} (inside : pos ≤ text.length) :
    find word text pos = search word pos (text.drop pos) := if_pos inside

/-- Where the word does not occur, the search goes on. -/
theorem find_succ {word text : List α} {pos : Nat} (inside : pos < text.length) (absent : ¬ Occurs word text pos) :
    find word text pos = find word text (pos + 1) := by
  have split : text.drop pos = text[pos] :: text.drop (pos + 1) := List.drop_eq_getElem_cons inside
  rw [Occurs, split] at absent
  rw [find_of_le inside.le, find_of_le inside, split, search_cons absent]

theorem find_of_occurs {word text : List α} {pos : Nat} (inside : pos ≤ text.length) (here : Occurs word text pos) :
    find word text pos = some pos := by
  rw [find_of_le inside, search_of_starts here]

theorem find_length {word text : List α} (nonempty : word ≠ []) : find word text text.length = none := by
  rw [find_of_le le_rfl, List.drop_length, search_nil nonempty]

theorem search_eq_some {word : List α} {found : Nat} (text : List α) : ∀ {pos : Nat}, search word pos text = some found →
    ∃ count, found = pos + count ∧ count ≤ text.length ∧ Occurs word text count := by
  induction text with
  | nil =>
    intro pos is
    rw [search] at is
    split_ifs at is with here
    exact ⟨0, (Option.some.inj is).symm, le_rfl, List.isPrefixOf_iff_prefix.mp here⟩
  | cons item text ih =>
    intro pos is
    rw [search] at is
    split_ifs at is with here
    · exact ⟨0, (Option.some.inj is).symm, Nat.zero_le _, List.isPrefixOf_iff_prefix.mp here⟩
    · obtain ⟨count, rfl, bound, occurs⟩ := ih is
      exact ⟨count + 1, by omega, Nat.succ_le_succ bound, occurs⟩

/-- **What is found** is an occurrence, and not before the position. -/
theorem find_eq_some {word text : List α} {pos found : Nat} (is : find word text pos = some found) :
    pos ≤ found ∧ found ≤ text.length ∧ Occurs word text found := by
  unfold find at is
  split_ifs at is with inside
  obtain ⟨count, rfl, bound, occurs⟩ := search_eq_some _ is
  rw [List.length_drop] at bound
  refine ⟨Nat.le_add_right _ _, by omega, ?_⟩
  rwa [Occurs, ← List.drop_drop]

end Search

end TextSearch

end MathWebSearch
