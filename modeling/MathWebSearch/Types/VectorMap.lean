/-
**`VectorMap`: a map kept as a sorted vector of pairs** (`mws/types/VectorMap.hpp`).

`findIndex` is the binary search of `_find_index`, `insert` appends and then moves the new entry
down by swaps, and `assign` is `map[key] = value` (`operator[]` followed by the assignment). The
comparator is a parameter, as in the source.

Over a vector whose keys are strictly increasing (`Sorted`):

* `find_eq_some_iff` — `find` returns exactly the stored entries;
* `Sorted.assign`, `find_assign`, `assign_perm` — an assignment keeps the order, changes one key and
  leaves every other entry alone.
-/

import MathWebSearch.Library.BinarySearch

set_option linter.unusedSectionVars false

namespace MathWebSearch

open BinarySearch

/-- The vector `_data`. Positions are numbers here and of type `int` in the source, which is the same for fewer than `2 ^ 31`
entries (`findIterator_eq`, `insertInt_eq` of `FiniteMap`). -/
abbrev VectorMap (κ ν : Type) := List (κ × ν)

namespace VectorMap

variable {κ ν : Type} (cmp : κ → κ → Ordering)

/-- `_find_index`: the position of `key`, or the size of the vector. -/
def findIndex (data : VectorMap κ ν) (key : κ) : Nat :=
  match binarySearch cmp (fun position => data[position]?.map Prod.fst) data.length key with
  | some (some position) => position
  | _ => data.length

/-- `find`, dereferenced: `none` is the `end()` iterator. -/
def find (data : VectorMap κ ν) (key : κ) : Option ν :=
  data[findIndex cmp data key]?.map Prod.snd

/-- The re-ordering loop of `insert`: the entry at `position` moves down past every larger one. -/
def reorder : VectorMap κ ν → Nat → VectorMap κ ν × Nat
  | data, 0 => (data, 0)
  | data, position + 1 =>
    match data[position + 1]?, data[position]? with
    | some entry, some before =>
      if cmp entry.1 before.1 = .lt then
        reorder ((data.set (position + 1) before).set position entry) position
      else (data, position + 1)
    | _, _ => (data, position + 1)

/-- `insert`: the vector, the position of the key and whether it is new. -/
def insert (data : VectorMap κ ν) (entry : κ × ν) : VectorMap κ ν × Nat × Bool :=
  let position := findIndex cmp data entry.1
  if position = data.length then
    let (reordered, final) := reorder cmp (data ++ [entry]) data.length
    (reordered, final, true)
  else (data, position, false)

/-- `map[key] = value`: `operator[]` makes sure the key is there, and its value is then replaced. -/
def assign (data : VectorMap κ ν) (key : κ) (value : ν) : VectorMap κ ν :=
  let (inserted, position, _) := insert cmp data (key, value)
  inserted.set position (key, value)

/-- The class invariant: the keys are strictly increasing. -/
def Sorted (data : VectorMap κ ν) : Prop := StrictlyIncreasing cmp (data.map Prod.fst)

section Facts

variable {cmp} [Std.TransCmp cmp] [Std.LawfulEqCmp cmp]
variable {data : VectorMap κ ν} {key : κ} {value : ν}

theorem reads_keys (data : VectorMap κ ν) (position : Nat) :
    data[position]?.map Prod.fst = (data.map Prod.fst)[position]? := by
  rw [List.getElem?_map]

theorem getElem?_middle (low : VectorMap κ ν) (entry : κ × ν) (high : VectorMap κ ν) :
    (low ++ entry :: high)[low.length]? = some entry := by
  rw [List.getElem?_append_right (le_refl _)]
  simp

theorem set_middle (low : VectorMap κ ν) (entry entry' : κ × ν) (high : VectorMap κ ν) :
    (low ++ entry :: high).set low.length entry' = low ++ entry' :: high := by
  rw [List.set_append_right _ _ (le_refl _)]
  simp

/-- A stored key is found at its position. -/
theorem findIndex_of_getElem (sorted : Sorted cmp data) {position : Nat}
    (atPosition : data[position]? = some (key, value)) : findIndex cmp data key = position := by
  have atKey : (data.map Prod.fst)[position]? = some key := by rw [← reads_keys, atPosition]; rfl
  have found := binarySearch_of_getElem sorted (fun index _ => reads_keys data index) atKey
  rw [List.length_map] at found
  rw [findIndex, found]

/-- An absent key gives the size of the vector. -/
theorem findIndex_of_notMem (sorted : Sorted cmp data) (absent : key ∉ data.map Prod.fst) :
    findIndex cmp data key = data.length := by
  have missing := binarySearch_of_notMem sorted (fun index _ => reads_keys data index) absent
  rw [List.length_map] at missing
  rw [findIndex, missing]

/-- **`find` returns exactly the stored entries.** -/
theorem find_eq_some_iff (sorted : Sorted cmp data) :
    find cmp data key = some value ↔ (key, value) ∈ data := by
  constructor
  · intro found
    by_cases member : key ∈ data.map Prod.fst
    · obtain ⟨⟨key', value'⟩, inside, rfl⟩ := List.mem_map.mp member
      obtain ⟨position, atPosition⟩ := List.getElem?_of_mem inside
      rw [find, findIndex_of_getElem sorted atPosition, atPosition] at found
      cases found
      exact inside
    · rw [find, findIndex_of_notMem sorted member] at found
      simp at found
  · intro inside
    obtain ⟨position, atPosition⟩ := List.getElem?_of_mem inside
    rw [find, findIndex_of_getElem sorted atPosition, atPosition]
    rfl

theorem find_eq_none_iff (sorted : Sorted cmp data) :
    find cmp data key = none ↔ key ∉ data.map Prod.fst := by
  rw [Option.eq_none_iff_forall_ne_some]
  constructor
  · intro missing member
    obtain ⟨⟨key', value'⟩, inside, rfl⟩ := List.mem_map.mp member
    exact missing value' ((find_eq_some_iff sorted).mpr inside)
  · intro absent value' found
    exact absent (List.mem_map.mpr ⟨_, (find_eq_some_iff sorted).mp found, rfl⟩)

/-! ### The re-ordering loop -/

/-- The loop moves the new entry, put behind `front`, in front of the largest entries of `front`. -/
theorem reorder_spec (cmp : κ → κ → Ordering) (entry : κ × ν) (front back : VectorMap κ ν) :
    ∃ low high, front = low ++ high ∧
      reorder cmp (front ++ entry :: back) front.length
        = (low ++ entry :: (high ++ back), low.length) ∧
      (∀ larger ∈ high, cmp entry.1 larger.1 = .lt) ∧
      ∀ last ∈ low.getLast?, cmp entry.1 last.1 ≠ .lt := by
  induction front using List.reverseRecOn generalizing back with
  | nil => exact ⟨[], [], rfl, rfl, by simp, by simp⟩
  | append_singleton front last ih =>
    have atEntry : (front ++ [last] ++ entry :: back)[front.length + 1]? = some entry := by
      rw [List.getElem?_append_right (by simp)]
      simp
    have atLast : (front ++ [last] ++ entry :: back)[front.length]? = some last := by
      rw [List.append_assoc, List.getElem?_append_right (by simp)]
      simp
    rw [List.length_append, List.length_singleton, reorder, atEntry, atLast]
    by_cases less : cmp entry.1 last.1 = .lt
    · have swapped : (((front ++ [last] ++ entry :: back).set (front.length + 1) last).set
          front.length entry) = front ++ entry :: (last :: back) := by
        rw [List.append_assoc, List.set_append_right _ _ (by simp),
          List.set_append_right _ _ (by simp)]
        simp
      obtain ⟨low, high, rfl, result, larger, stop⟩ := ih (last :: back)
      refine ⟨low, high ++ [last], by simp, ?_, ?_, stop⟩
      · simp only [less, if_true, swapped, result]
        simp
      · intro other member
        rcases List.mem_append.mp member with member | member
        · exact larger other member
        · rw [List.mem_singleton.mp member]
          exact less
    · refine ⟨front ++ [last], [], by simp, ?_, by simp, by simpa using less⟩
      simp only [less, if_false]
      simp

/-- Inserting a key that is there changes nothing. -/
theorem insert_of_mem {low high : VectorMap κ ν} (sorted : Sorted cmp (low ++ (key, value) :: high)) (value' : ν) :
    insert cmp (low ++ (key, value) :: high) (key, value') = (low ++ (key, value) :: high, low.length, false) := by
  have stored : low.length ≠ (low ++ (key, value) :: high).length := by simp
  simp only [insert, findIndex_of_getElem sorted (getElem?_middle low _ high), if_neg stored]

/-- **Inserting a new key**: the entry lands between the smaller and the larger keys. -/
theorem insert_of_notMem (sorted : Sorted cmp data) (absent : key ∉ data.map Prod.fst)
    (value : ν) :
    ∃ low high, data = low ++ high ∧
      insert cmp data (key, value) = (low ++ (key, value) :: high, low.length, true) ∧
      Sorted cmp (low ++ (key, value) :: high) := by
  obtain ⟨low, high, rfl, result, larger, stop⟩ := reorder_spec cmp (key, value) data []
  refine ⟨low, high, rfl, ?_, ?_⟩
  · rw [insert, if_pos (findIndex_of_notMem sorted absent), result]
    simp
  · unfold Sorted StrictlyIncreasing at sorted ⊢
    rw [List.map_append, List.map_cons]
    rw [List.map_append] at sorted absent
    rw [List.pairwise_append] at sorted ⊢
    obtain ⟨sortedLow, sortedHigh, between⟩ := sorted
    refine ⟨sortedLow, List.pairwise_cons.mpr ⟨?_, sortedHigh⟩, ?_⟩
    · intro other member
      obtain ⟨entry, inside, rfl⟩ := List.mem_map.mp member
      exact larger entry inside
    · -- everything below the last entry of `low` is below `key`, because that entry is
      have smaller : ∀ other ∈ low.map Prod.fst, cmp other key = .lt := by
        intro other member
        cases low using List.reverseRecOn with
        | nil => simp at member
        | append_singleton low last =>
          have notLess : cmp key last.1 ≠ .lt := stop last (by simp)
          have different : cmp key last.1 ≠ .eq := by
            intro same
            apply absent
            rw [Std.LawfulEqCmp.eq_of_compare same]
            simp
          have lastLess : cmp last.1 key = .lt := by
            cases order : cmp key last.1 with
            | lt => exact absurd order notLess
            | eq => exact absurd order different
            | gt => exact Std.OrientedCmp.gt_iff_lt.mp order
          rw [List.map_append, List.mem_append] at member
          rcases member with member | member
          · rw [List.map_append, List.pairwise_append] at sortedLow
            have := sortedLow.2.2 other member last.1 (by simp)
            exact Std.TransCmp.lt_trans this lastLess
          · rw [List.map_cons, List.map_nil, List.mem_singleton] at member
            rw [member]
            exact lastLess
      intro other member key' member'
      rcases List.mem_cons.mp member' with rfl | member'
      · exact smaller other member
      · exact between other member key' member'

/-! ### Assignment -/

/-- The entry of a key that is there is replaced. -/
theorem assign_of_mem {low high : VectorMap κ ν} (sorted : Sorted cmp (low ++ (key, value) :: high)) (value' : ν) :
    assign cmp (low ++ (key, value) :: high) key value' = low ++ (key, value') :: high := by
  rw [assign, insert_of_mem sorted value']
  exact set_middle low (key, value) (key, value') high

/-- **An assignment, as a whole**: the key's entry is replaced, or put where the order wants it. -/
theorem assign_spec (sorted : Sorted cmp data) (key : κ) (value : ν) :
    (∃ low old high, data = low ++ (key, old) :: high ∧
        assign cmp data key value = low ++ (key, value) :: high) ∨
      (key ∉ data.map Prod.fst ∧ ∃ low high, data = low ++ high ∧
        assign cmp data key value = low ++ (key, value) :: high ∧
        Sorted cmp (low ++ (key, value) :: high)) := by
  by_cases member : key ∈ data.map Prod.fst
  · obtain ⟨⟨key', old⟩, inside, rfl⟩ := List.mem_map.mp member
    obtain ⟨low, high, rfl⟩ := List.append_of_mem inside
    exact Or.inl ⟨low, old, high, rfl, assign_of_mem sorted value⟩
  · obtain ⟨low, high, rfl, result, sorted'⟩ := insert_of_notMem sorted member value
    refine Or.inr ⟨member, low, high, rfl, ?_, sorted'⟩
    rw [assign, result]
    exact set_middle low (key, value) (key, value) high

/-- In front of a key are the entries with smaller keys. -/
theorem filter_lt {low high : VectorMap κ ν} (sorted : Sorted cmp (low ++ (key, value) :: high)) :
    ((low ++ high).filter fun entry => decide (cmp entry.1 key = .lt)) = low := by
  unfold Sorted StrictlyIncreasing at sorted
  rw [List.map_append, List.map_cons, List.pairwise_append] at sorted
  obtain ⟨-, sortedHigh, between⟩ := sorted
  have front : ∀ entry ∈ low, cmp entry.1 key = .lt := fun entry member =>
    between entry.1 (List.mem_map_of_mem member) key List.mem_cons_self
  have back : ∀ entry ∈ high, cmp entry.1 key ≠ .lt := fun entry member less => by
    have larger := (List.pairwise_cons.mp sortedHigh).1 entry.1 (List.mem_map_of_mem member)
    rw [Std.OrientedCmp.gt_of_lt larger] at less
    cases less
  rw [List.filter_append, List.filter_eq_self.mpr fun entry member => decide_eq_true (front entry member),
    List.filter_eq_nil_iff.mpr fun entry member less => back entry member (of_decide_eq_true less), List.append_nil]

/-- The place of a new key does not depend on its value. -/
theorem assign_of_place {low high : VectorMap κ ν} (sorted : Sorted cmp (low ++ (key, value) :: high)) (value' : ν) :
    assign cmp (low ++ high) key value' = low ++ (key, value') :: high := by
  have nodup := sorted.nodup
  rw [List.map_append, List.map_cons, List.nodup_middle, List.nodup_cons, ← List.map_append] at nodup
  have fewer : Sorted cmp (low ++ high) := by
    refine List.Pairwise.sublist (List.Sublist.map _ ?_) sorted
    exact List.Sublist.append_left (List.sublist_cons_self _ _) low
  rcases assign_spec fewer key value' with ⟨low', old, high', same, -⟩ | ⟨-, low', high', same, assigned, sorted'⟩
  · refine absurd ?_ nodup.1
    rw [same, List.map_append, List.map_cons]
    exact List.mem_append_right _ List.mem_cons_self
  · have fronts := congrArg (List.filter fun entry => decide (cmp entry.1 key = .lt)) same
    rw [filter_lt sorted, filter_lt sorted'] at fronts
    subst fronts
    rw [assigned, List.append_cancel_left same]

/-- An assignment keeps the keys strictly increasing. -/
theorem Sorted.assign (sorted : Sorted cmp data) (key : κ) (value : ν) :
    Sorted cmp (VectorMap.assign cmp data key value) := by
  rcases assign_spec sorted key value with ⟨low, old, high, rfl, result⟩ | ⟨_, _, _, _, result, sorted'⟩
  · rw [result]
    unfold Sorted at sorted ⊢
    simpa using sorted
  · rw [result]
    exact sorted'

/-- **An assignment changes the entry of its key and no other.** -/
theorem assign_perm (sorted : Sorted cmp data) [DecidableEq κ] (key : κ) (value : ν) :
    (assign cmp data key value).Perm
      ((key, value) :: data.filter fun entry => decide (entry.1 ≠ key)) := by
  rcases assign_spec sorted key value with ⟨low, old, high, rfl, result⟩ | ⟨absent, low, high, rfl, result, _⟩
  · have nodup := sorted.nodup
    rw [List.map_append, List.map_cons, List.nodup_append] at nodup
    have lowKeeps : (low.filter fun entry => decide (entry.1 ≠ key)) = low := by
      refine List.filter_eq_self.mpr fun entry member => decide_eq_true fun same => ?_
      exact nodup.2.2 entry.1 (List.mem_map_of_mem member) key (by simp) same
    have highKeeps : (high.filter fun entry => decide (entry.1 ≠ key)) = high := by
      refine List.filter_eq_self.mpr fun entry member => decide_eq_true fun same => ?_
      apply (List.nodup_cons.mp nodup.2.1).1
      show key ∈ high.map Prod.fst
      rw [← same]
      exact List.mem_map_of_mem member
    rw [result, List.filter_append, lowKeeps, List.filter_cons_of_neg (by simp), highKeeps]
    exact List.perm_middle
  · have keeps : ((low ++ high).filter fun entry => decide (entry.1 ≠ key)) = low ++ high := by
      refine List.filter_eq_self.mpr fun entry member => decide_eq_true fun same => ?_
      exact absent (same ▸ List.mem_map_of_mem member)
    rw [result, keeps]
    exact List.perm_middle

theorem mem_assign (sorted : Sorted cmp data) (key : κ) (value : ν) (entry : κ × ν) :
    entry ∈ assign cmp data key value ↔
      entry = (key, value) ∨ (entry ∈ data ∧ entry.1 ≠ key) := by
  classical
  rw [(assign_perm sorted key value).mem_iff]
  simp

theorem find_assign (sorted : Sorted cmp data) [DecidableEq κ] (key key' : κ) (value : ν) :
    find cmp (assign cmp data key value) key' =
      if key' = key then some value else find cmp data key' := by
  apply Option.ext
  intro value'
  rw [find_eq_some_iff (sorted.assign key value), mem_assign sorted]
  by_cases same : key' = key
  · subst same
    simp [eq_comm]
  · rw [if_neg same, find_eq_some_iff sorted]
    simp [same]

end Facts

end VectorMap

end MathWebSearch
