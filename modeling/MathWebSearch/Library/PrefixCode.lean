/-
**Complete prefix codes: words that spell terms of fixed arity.**

A word over symbols with an arity spells a sequence of terms in pre-order when the number of
subterms still open never runs out early and is used up exactly at the end.

* `Closes ar opened word` — reading `word` with `opened` subterms open closes all of them, at the
  last symbol and not before.
* `IsComplete ar word` — the arithmetic form of one complete term: the running count
  `1 + Σ (arity - 1)` is positive on every proper part and zero on the whole.
* `isComplete_iff_closes` — the two agree for one open subterm.
* `Closes.append`, `Closes.split`, `Closes.cancel` — complete words concatenate, come apart in one
  way only, and no complete word is a proper part of another (`Closes.eq_of_front`).
-/

import Mathlib

namespace PrefixCode

section Words

variable {α : Type} (ar : α → Nat)

/-- Reading `word` with `opened` subterms open closes all of them, and not before its end. -/
def Closes : Nat → List α → Prop
  | 0, [] => True
  | 0, _ :: _ => False
  | _ + 1, [] => False
  | opened + 1, symbol :: rest => Closes (opened + ar symbol) rest

instance decidableCloses : ∀ (opened : Nat) (word : List α), Decidable (Closes ar opened word)
  | 0, [] => .isTrue trivial
  | 0, _ :: _ => .isFalse id
  | _ + 1, [] => .isFalse id
  | opened + 1, symbol :: rest => decidableCloses (opened + ar symbol) rest

/-- The subterms open after `word`, one being open at the start. -/
def balance (word : List α) : Int := 1 + (word.map fun symbol => (ar symbol : Int) - 1).sum

/-- **One complete term**: the balance is positive on every proper part and zero on the whole. -/
def IsComplete (word : List α) : Prop :=
  (∀ front back, word = front ++ back → back ≠ [] → 0 < balance ar front) ∧ balance ar word = 0

variable {ar}

@[simp] theorem closes_zero {word : List α} : Closes ar 0 word ↔ word = [] := by
  cases word <;> simp [Closes]

@[simp] theorem closes_cons {opened : Nat} {symbol : α} {rest : List α} :
    Closes ar (opened + 1) (symbol :: rest) ↔ Closes ar (opened + ar symbol) rest := Iff.rfl

theorem not_closes_nil {opened : Nat} : ¬ Closes ar (opened + 1) [] := id

/-- A word that closes something is not empty. -/
theorem Closes.exists_cons {opened : Nat} {word : List α} (closes : Closes ar (opened + 1) word) :
    ∃ symbol rest, word = symbol :: rest ∧ Closes ar (opened + ar symbol) rest := by
  cases word with
  | nil => exact (not_closes_nil closes).elim
  | cons symbol rest => exact ⟨symbol, rest, rfl, closes⟩

/-- Complete words one after the other close what they close separately. -/
theorem Closes.append {first second : Nat} {front back : List α}
    (closesFront : Closes ar first front) (closesBack : Closes ar second back) :
    Closes ar (first + second) (front ++ back) := by
  induction front generalizing first with
  | nil =>
    cases first with
    | zero => simpa using closesBack
    | succ first => exact (not_closes_nil closesFront).elim
  | cons symbol rest ih =>
    cases first with
    | zero => exact closesFront.elim
    | succ first =>
      rw [Nat.succ_add, List.cons_append, closes_cons, Nat.add_right_comm]
      exact ih closesFront

/-- A word that closes `first + second` subterms comes apart after the first `first`. -/
theorem Closes.split {first second : Nat} {word : List α}
    (closes : Closes ar (first + second) word) :
    ∃ front back, word = front ++ back ∧ Closes ar first front ∧ Closes ar second back := by
  induction word generalizing first with
  | nil =>
    cases first with
    | zero => exact ⟨[], [], rfl, trivial, by simpa using closes⟩
    | succ first => rw [Nat.succ_add] at closes; exact (not_closes_nil closes).elim
  | cons symbol rest ih =>
    cases first with
    | zero => exact ⟨[], symbol :: rest, rfl, trivial, by simpa using closes⟩
    | succ first =>
      rw [Nat.succ_add, closes_cons, Nat.add_right_comm] at closes
      obtain ⟨front, back, rfl, closesFront, closesBack⟩ := ih closes
      exact ⟨symbol :: front, back, rfl, closesFront, closesBack⟩

/-- **A complete front can be read off a word in one way only.** -/
theorem Closes.cancel {opened : Nat} {front front' back back' : List α}
    (closes : Closes ar opened front) (closes' : Closes ar opened front')
    (same : front ++ back = front' ++ back') : front = front' ∧ back = back' := by
  induction front generalizing opened front' with
  | nil =>
    cases opened with
    | zero =>
      obtain rfl := closes_zero.mp closes'
      exact ⟨rfl, same⟩
    | succ opened => exact (not_closes_nil closes).elim
  | cons symbol rest ih =>
    cases opened with
    | zero => exact closes.elim
    | succ opened =>
      obtain ⟨symbol', rest', rfl, closesRest'⟩ := closes'.exists_cons
      simp only [List.cons_append, List.cons.injEq] at same
      obtain ⟨rfl, same⟩ := same
      obtain ⟨rfl, rfl⟩ := ih closes closesRest' same
      exact ⟨rfl, rfl⟩

/-- No complete word is a proper prefix of another. -/
theorem Closes.eq_of_front {opened : Nat} {word word' : List α}
    (closes : Closes ar opened word) (closes' : Closes ar opened word')
    (front : word <+: word') : word = word' := by
  obtain ⟨back, rfl⟩ := front
  have same : word ++ back = word ++ back ++ [] := by rw [List.append_nil]
  exact (closes.cancel closes' same).1

/-- Only the arities of the symbols of a word matter. -/
theorem closes_congr {ar' : α → Nat} {word : List α} (same : ∀ symbol ∈ word, ar symbol = ar' symbol) :
    ∀ {opened : Nat}, Closes ar opened word ↔ Closes ar' opened word := by
  induction word with
  | nil => intro opened; cases opened <;> exact Iff.rfl
  | cons symbol rest ih =>
    intro opened
    cases opened with
    | zero => exact Iff.rfl
    | succ opened =>
      rw [closes_cons, closes_cons, same symbol List.mem_cons_self]
      exact ih fun other member => same other (List.mem_cons_of_mem _ member)

/-- Renaming the symbols of a word. -/
theorem closes_map {β : Type} (f : β → α) {word : List β} : ∀ {opened : Nat},
    Closes ar opened (word.map f) ↔ Closes (fun symbol => ar (f symbol)) opened word := by
  induction word with
  | nil => intro opened; cases opened <;> exact Iff.rfl
  | cons symbol rest ih =>
    intro opened
    cases opened with
    | zero => exact Iff.rfl
    | succ opened => exact ih

/-! ### The running count -/

/-- The running count from `opened` open subterms, as `Closes` reads it. -/
theorem closes_iff_count (opened : Nat) (word : List α) :
    Closes ar opened word ↔
      (∀ front back, word = front ++ back → back ≠ [] →
          0 < (opened : Int) + (front.map fun symbol => (ar symbol : Int) - 1).sum) ∧
        (opened : Int) + (word.map fun symbol => (ar symbol : Int) - 1).sum = 0 := by
  induction word generalizing opened with
  | nil =>
    rw [show Closes ar opened [] ↔ opened = 0 by cases opened <;> simp [Closes]]
    constructor
    · rintro rfl
      refine ⟨fun front back empty nonempty => ?_, by simp⟩
      exact (nonempty (List.append_eq_nil_iff.mp empty.symm).2).elim
    · rintro ⟨_, zero⟩
      simpa using zero
  | cons symbol rest ih =>
    cases opened with
    | zero =>
      refine ⟨fun closes => closes.elim, fun count => ?_⟩
      have positive := count.1 [] (symbol :: rest) rfl (by simp)
      simp at positive
    | succ opened =>
      rw [closes_cons, ih]
      constructor
      · rintro ⟨positive, zero⟩
        refine ⟨fun front back same nonempty => ?_, ?_⟩
        · cases front with
          | nil => simp only [List.map_nil, List.sum_nil]; omega
          | cons head front =>
            simp only [List.cons_append, List.cons.injEq] at same
            obtain ⟨rfl, same⟩ := same
            have := positive front back same nonempty
            simp only [List.map_cons, List.sum_cons]
            push_cast at this ⊢
            linarith
        · simp only [List.map_cons, List.sum_cons]
          push_cast at zero ⊢
          linarith
      · rintro ⟨positive, zero⟩
        refine ⟨fun front back same nonempty => ?_, ?_⟩
        · have := positive (symbol :: front) back (by rw [same, List.cons_append]) nonempty
          simp only [List.map_cons, List.sum_cons] at this
          push_cast at this ⊢
          linarith
        · simp only [List.map_cons, List.sum_cons] at zero
          push_cast at zero ⊢
          linarith

/-- A word closes one number of subterms only. -/
theorem Closes.unique {opened opened' : Nat} {word : List α} (closes : Closes ar opened word)
    (closes' : Closes ar opened' word) : opened = opened' := by
  have count := ((closes_iff_count opened word).mp closes).2
  have count' := ((closes_iff_count opened' word).mp closes').2
  omega

/-- **One complete term closes one open subterm.** -/
theorem isComplete_iff_closes (word : List α) : IsComplete ar word ↔ Closes ar 1 word := by
  rw [closes_iff_count]
  rfl

end Words

end PrefixCode
