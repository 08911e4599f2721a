/-
**Binary search over any sequence of keys that can be read by position.**

`binarySearch` is the textbook loop with signed bounds `left` and `right`; the sequence is given by
its size and a function that reads the key at a position, which may fail (`none`).

* `binarySearch_of_getElem` — over a strictly increasing sequence the loop finds the position of
  every key that occurs.
* `binarySearch_of_notMem` — and reports that any other key does not occur.
* `takeWhile_iff` — the keys with a property are a front of the sequence exactly if they are below the others.
-/

import Mathlib

set_option linter.unusedSectionVars false

namespace BinarySearch

variable {κ : Type} (cmp : κ → κ → Ordering)

/-- The search loop between the positions `left` and `right`, both included. The outer `none` is a
key that could not be read. -/
def searchLoop (read : Nat → Option κ) (key : κ) : Nat → Int → Int → Option (Option Nat)
  | 0, _, _ => some none
  | fuel + 1, left, right =>
    if left ≤ right then
      let center := left + (right - left) / 2
      match read center.toNat with
      | none => none
      | some found =>
        match cmp found key with
        | .gt => searchLoop read key fuel left (center - 1)
        | .eq => some (some center.toNat)
        | .lt => searchLoop read key fuel (center + 1) right
    else some none

/-- The position of `key` among the first `size` keys that `read` delivers. Every iteration drops at
least one position, so `size + 1` iterations are enough. -/
def binarySearch (read : Nat → Option κ) (size : Nat) (key : κ) : Option (Option Nat) :=
  searchLoop cmp read key (size + 1) 0 ((size : Int) - 1)

/-- Strictly increasing under `cmp`. -/
def StrictlyIncreasing (keys : List κ) : Prop := keys.Pairwise fun first second => cmp first second = .lt

section Correctness

variable {cmp} [Std.TransCmp cmp] [Std.LawfulEqCmp cmp]

theorem StrictlyIncreasing.nodup {keys : List κ} (increasing : StrictlyIncreasing cmp keys) :
    keys.Nodup := by
  refine increasing.imp fun {first second} less same => ?_
  subst same
  exact absurd (less.symm.trans Std.ReflCmp.compare_self) nofun

/-- The position of a key that compares below, or above, a key at a known position. -/
theorem StrictlyIncreasing.position {keys : List κ} (increasing : StrictlyIncreasing cmp keys)
    {center position : Nat} {found key : κ} (atCenter : keys[center]? = some found)
    (atPosition : keys[position]? = some key) :
    (cmp found key = .lt → center < position) ∧ (cmp found key = .gt → position < center) := by
  obtain ⟨centerLt, rfl⟩ := List.getElem?_eq_some_iff.mp atCenter
  obtain ⟨positionLt, rfl⟩ := List.getElem?_eq_some_iff.mp atPosition
  have ordered := List.pairwise_iff_getElem.mp increasing
  rcases Nat.lt_trichotomy center position with less | rfl | greater
  · have := ordered center position centerLt positionLt less
    rw [this]
    exact ⟨fun _ => less, nofun⟩
  · have self : cmp keys[center] keys[center] = .eq := Std.ReflCmp.compare_self
    rw [self]
    exact ⟨nofun, nofun⟩
  · have := ordered position center positionLt centerLt greater
    rw [Std.OrientedCmp.gt_iff_lt.mpr this]
    exact ⟨nofun, fun _ => greater⟩

variable {read : Nat → Option κ} {keys : List κ}

/-- **One invariant for both outcomes.** If the key can only sit between `left` and `right`, the loop
answers with its position, or with `none` when it does not occur. -/
theorem searchLoop_spec (increasing : StrictlyIncreasing cmp keys)
    (reads : ∀ position, position < keys.length → read position = keys[position]?) (key : κ) :
    ∀ (fuel : Nat) (left right : Int), 0 ≤ left → right < keys.length → right - left + 1 < fuel →
      (∀ position : Nat, keys[position]? = some key →
        left ≤ position ∧ (position : Int) ≤ right) →
      (∃ position, searchLoop cmp read key fuel left right = some (some position) ∧
          keys[position]? = some key) ∨
        (searchLoop cmp read key fuel left right = some none ∧ key ∉ keys) := by
  intro fuel
  induction fuel with
  | zero =>
    intro left right _ _ small within
    refine Or.inr ⟨rfl, fun member => ?_⟩
    obtain ⟨position, atPosition⟩ := List.getElem?_of_mem member
    have := within position atPosition
    push_cast at small
    omega
  | succ fuel ih =>
    intro left right leftPos rightLt small within
    unfold searchLoop
    by_cases ordered : left ≤ right
    · rw [if_pos ordered]
      obtain ⟨center, centerEq⟩ : ∃ center : Nat, left + (right - left) / 2 = center :=
        ⟨(left + (right - left) / 2).toNat, by omega⟩
      have centerLt : center < keys.length := by omega
      obtain ⟨found, atCenter⟩ : ∃ found, keys[center]? = some found :=
        ⟨_, List.getElem?_eq_getElem centerLt⟩
      simp only [centerEq, Int.toNat_natCast, reads center centerLt, atCenter]
      cases order : cmp found key with
      | lt =>
        refine ih _ _ (by omega) rightLt (by push_cast at small ⊢; omega) fun position at_ => ?_
        have := (increasing.position atCenter at_).1 order
        have := within position at_
        omega
      | eq =>
        have same : found = key := Std.LawfulEqCmp.eq_of_compare order
        exact Or.inl ⟨center, rfl, same ▸ atCenter⟩
      | gt =>
        refine ih _ _ leftPos (by omega) (by push_cast at small ⊢; omega) fun position at_ => ?_
        have := (increasing.position atCenter at_).2 order
        have := within position at_
        omega
    · rw [if_neg ordered]
      refine Or.inr ⟨rfl, fun member => ?_⟩
      obtain ⟨position, atPosition⟩ := List.getElem?_of_mem member
      have := within position atPosition
      omega

theorem binarySearch_spec (increasing : StrictlyIncreasing cmp keys)
    (reads : ∀ position, position < keys.length → read position = keys[position]?) (key : κ) :
    (∃ position, binarySearch cmp read keys.length key = some (some position) ∧
        keys[position]? = some key) ∨
      (binarySearch cmp read keys.length key = some none ∧ key ∉ keys) := by
  refine searchLoop_spec increasing reads key _ _ _ le_rfl (by omega) (by push_cast; omega) ?_
  intro position atPosition
  obtain ⟨positionLt, _⟩ := List.getElem?_eq_some_iff.mp atPosition
  omega

/-- **The search finds every key that occurs, at its position.** -/
theorem binarySearch_of_getElem (increasing : StrictlyIncreasing cmp keys)
    (reads : ∀ position, position < keys.length → read position = keys[position]?) {key : κ}
    {position : Nat} (atPosition : keys[position]? = some key) :
    binarySearch cmp read keys.length key = some (some position) := by
  rcases binarySearch_spec increasing reads key with ⟨found, result, atFound⟩ | ⟨_, absent⟩
  · obtain ⟨foundLt, atFound⟩ := List.getElem?_eq_some_iff.mp atFound
    obtain ⟨positionLt, atPosition⟩ := List.getElem?_eq_some_iff.mp atPosition
    have same := (increasing.nodup.getElem_inj_iff).mp (atFound.trans atPosition.symm)
    rw [result, same]
  · exact absurd (List.mem_of_getElem? atPosition) absent

/-- **A key that does not occur is reported as such.** -/
theorem binarySearch_of_notMem (increasing : StrictlyIncreasing cmp keys)
    (reads : ∀ position, position < keys.length → read position = keys[position]?) {key : κ}
    (absent : key ∉ keys) : binarySearch cmp read keys.length key = some none := by
  rcases binarySearch_spec increasing reads key with ⟨found, _, atFound⟩ | ⟨result, _⟩
  · exact absurd (List.mem_of_getElem? atFound) absent
  · exact result

/-! ### The keys that come first -/

/-- **The keys with a property come first** exactly if each of them is below every key without it. -/
theorem StrictlyIncreasing.takeWhile_iff (increasing : StrictlyIncreasing cmp keys) (holds : κ → Bool) :
    (keys.takeWhile holds).length = keys.countP holds ↔
      ∀ key ∈ keys, ∀ other ∈ keys, holds key = true → holds other = false → cmp key other = .lt := by
  have split : keys.takeWhile holds ++ keys.dropWhile holds = keys := List.takeWhile_append_dropWhile
  have front : (keys.takeWhile holds).countP holds = (keys.takeWhile holds).length :=
    List.countP_eq_length.mpr fun key member => List.mem_takeWhile_imp member
  have count : keys.countP holds = (keys.takeWhile holds).length + (keys.dropWhile holds).countP holds := by
    rw [← front, ← List.countP_append, split]
  constructor
  · intro same key member other member' has hasNot
    have none : ∀ key ∈ keys.dropWhile holds, ¬ holds key = true := List.countP_eq_zero.mp (by omega)
    rw [← split] at increasing member member'
    have first : key ∈ keys.takeWhile holds :=
      (List.mem_append.mp member).resolve_right fun later => none key later has
    have later : other ∈ keys.dropWhile holds :=
      (List.mem_append.mp member').resolve_left fun first' => by
        rw [List.mem_takeWhile_imp first'] at hasNot
        cases hasNot
    exact (List.pairwise_append.mp increasing).2.2 key first other later
  · intro below
    have none : (keys.dropWhile holds).countP holds = 0 := by
      refine List.countP_eq_zero.mpr fun key member has => ?_
      obtain ⟨other, rest, rear⟩ := List.exists_cons_of_ne_nil (List.ne_nil_of_mem member)
      have hasNot : holds other = false := by
        have nonempty : keys.dropWhile holds ≠ [] := List.ne_nil_of_mem member
        have head := List.head_dropWhile_not holds nonempty
        simpa only [rear, List.head_cons] using head
      have among : ∀ key ∈ other :: rest, key ∈ keys := fun key inRear =>
        split ▸ List.mem_append_right _ (rear.symm ▸ inRear)
      rw [rear] at member
      rcases List.mem_cons.mp member with rfl | later
      · rw [has] at hasNot
        cases hasNot
      · have ordered : cmp other key = .lt := by
          rw [← split, rear] at increasing
          exact (List.pairwise_cons.mp (List.pairwise_append.mp increasing).2.1).1 key later
        have turned := below key (among key member) other (among other List.mem_cons_self) has hasNot
        rw [Std.OrientedCmp.gt_iff_lt.mpr ordered] at turned
        cases turned
    rw [count, none, Nat.add_zero]

end Correctness

end BinarySearch
