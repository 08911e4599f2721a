/-
**A `VectorMap` is a finite map** (`mws/types/VectorMap.hpp`).

The search with the integers of the source: `left`, `right` and the position that is returned are of type `int`, `center`
is a `size_t`, and the last position is computed from the `size_t` of the vector. For fewer than `2 ^ 31` keys this is
the search over positions.

* `findInt_eq` — the two searches agree.
* `Call`, `step` — `insert`, `operator[]` and an assignment through the reference that `operator[]` returns.
* `vectorMap_refines` — **after every sequence of calls** the keys are increasing, `find` is the look-up in the map that
  the calls make, and the next call returns and changes what it does there.
-/

import MathWebSearch.Types.VectorMap
import MathWebSearch.Types.Query
import MathWebSearch.Types.EncodedToken

set_option linter.unusedSectionVars false

namespace MathWebSearch

open BinarySearch

namespace VectorMap

variable {κ ν : Type}

/-! ### The search with the integers of the source -/

section Search

variable (cmp : κ → κ → Ordering)

/-- The loop of `_find_index`; `none` where it reads outside the vector, or where the rounds are used up. -/
def findLoop (data : VectorMap κ ν) (key : κ) : Nat → Int → Int → Option Int
  | 0, _, _ => none
  | rounds + 1, left, right =>
    if left ≤ right then
      let center := castSizeT (castInt (left + castInt (castInt (right - left) / 2)))
      match data[center]? with
      | none => none
      | some entry =>
        match cmp entry.1 key with
        | .gt => findLoop data key rounds left (castInt (castSizeT (center - 1)))
        | .eq => some (castInt center)
        | .lt => findLoop data key rounds (castInt (castSizeT (center + 1))) right
    else some (castInt data.length)

/-- `_find_index`. -/
def findInt (data : VectorMap κ ν) (key : κ) : Option Int :=
  findLoop cmp data key (data.length + 1) 0 (castInt (castSizeT ((data.length : Int) - 1)))

/-- `find`: the distance of the iterator from `begin()`. -/
def findIterator (data : VectorMap κ ν) (key : κ) : Option Nat := (findInt cmp data key).map Int.toNat

/-- `insert`, with the search of the source. -/
def insertInt (data : VectorMap κ ν) (entry : κ × ν) : Option (VectorMap κ ν × Nat × Bool) := do
  let position ← findIterator cmp data entry.1
  if position = data.length then
    let (reordered, final) := reorder cmp (data ++ [entry]) data.length
    return (reordered, final, true)
  else return (data, position, false)

end Search

section Small

theorem castInt_of_small {value : Int} (low : -2 ^ 31 ≤ value) (high : value < 2 ^ 31) : castInt value = value := by
  unfold castInt
  rw [Int.bmod_def]
  split_ifs <;> omega

theorem castSizeT_of_small {value : Int} (low : 0 ≤ value) (high : value < 2 ^ 64) : (castSizeT value : Int) = value := by
  unfold castSizeT
  omega

/-- The position in front of the first one is -1, also by way of a `size_t`. -/
theorem castInt_castSizeT {value : Int} (low : -1 ≤ value) (high : value < 2 ^ 31) :
    castInt (castSizeT value) = value := by
  unfold castInt castSizeT
  rw [Int.bmod_def]
  split_ifs <;> omega

end Small

section Facts

variable {cmp : κ → κ → Ordering} [Std.TransCmp cmp] [Std.LawfulEqCmp cmp] {data : VectorMap κ ν} {key : κ}

/-- The position between two others, and the two next to it. -/
theorem center_casts {left right : Int} {size : Nat} (few : size < 2 ^ 31) (leftPos : 0 ≤ left) (ordered : left ≤ right)
    (rightLt : right < size) : ∃ center : Nat, left + (right - left) / 2 = center ∧ left ≤ center ∧ center ≤ right ∧
      castSizeT (castInt (left + castInt (castInt (right - left) / 2))) = center ∧ castInt center = center ∧
      castInt (castSizeT ((center : Int) - 1)) = center - 1 ∧ castInt (castSizeT ((center : Int) + 1)) = center + 1 := by
  obtain ⟨center, middle⟩ : ∃ center : Nat, left + (right - left) / 2 = center :=
    ⟨(left + (right - left) / 2).toNat, by omega⟩
  -- the bounds come before the casts, which the arithmetic need not look into
  have distance : -2 ^ 31 ≤ right - left ∧ right - left < 2 ^ 31 := by omega
  have half : -2 ^ 31 ≤ (right - left) / 2 ∧ (right - left) / 2 < 2 ^ 31 := by omega
  have between : left ≤ center ∧ center ≤ right := by omega
  have bounds : -2 ^ 31 ≤ (center : Int) ∧ (center : Int) < 2 ^ 31 := by omega
  have next : -1 ≤ (center : Int) - 1 ∧ (center : Int) - 1 < 2 ^ 31 ∧ -1 ≤ (center : Int) + 1 ∧
      (center : Int) + 1 < 2 ^ 31 := by omega
  have wide : (center : Int) < 2 ^ 64 := by omega
  have self : castInt center = center := castInt_of_small bounds.1 bounds.2
  refine ⟨center, middle, between.1, between.2, ?_, self, castInt_castSizeT next.1 next.2.1,
    castInt_castSizeT next.2.2.1 next.2.2.2⟩
  rw [castInt_of_small distance.1 distance.2, castInt_of_small half.1 half.2, middle, self]
  exact Int.ofNat.inj (castSizeT_of_small (Int.natCast_nonneg center) wide)

/-- The loop between positions of the vector. -/
theorem findLoop_eq (few : data.length < 2 ^ 31) : ∀ (rounds : Nat) (left right : Int), 0 ≤ left → left ≤ right + 1 →
    right < data.length → right - left + 1 < rounds →
      findLoop cmp data key rounds left right =
        some (match searchLoop cmp (fun position => data[position]?.map Prod.fst) key rounds left right with
          | some (some position) => position
          | _ => data.length) := by
  intro rounds
  induction rounds with
  | zero =>
    intro left right _ order _ enough
    push_cast at enough
    omega
  | succ rounds ih =>
    intro left right leftPos order rightLt enough
    push_cast at enough
    rw [findLoop, searchLoop]
    by_cases ordered : left ≤ right
    · obtain ⟨center, middle, low, high, casts⟩ := center_casts few leftPos ordered rightLt
      have inside : center < data.length := by
        clear casts
        omega
      have lower : center - 1 - left + 1 < (rounds : Int) ∧ left ≤ (center : Int) - 1 + 1 ∧
          (center : Int) - 1 < data.length := by
        clear casts
        omega
      have upper : right - (center + 1) + 1 < (rounds : Int) ∧ 0 ≤ (center : Int) + 1 ∧ (center : Int) + 1 ≤ right + 1 := by
        clear casts
        omega
      rw [if_pos ordered, if_pos ordered]
      simp only [casts.1, middle, Int.toNat_natCast, List.getElem?_eq_getElem inside, Option.map_some]
      cases compared : cmp (data[center]).1 key with
      | lt =>
        simp only [casts.2.2.2]
        exact ih _ _ upper.2.1 upper.2.2 rightLt upper.1
      | eq =>
        simp only [casts.2.1]
      | gt =>
        simp only [casts.2.2.1]
        exact ih _ _ leftPos lower.2.1 lower.2.2 lower.1
    · have low : -2 ^ 31 ≤ (data.length : Int) := by omega
      have high : (data.length : Int) < 2 ^ 31 := by omega
      rw [if_neg ordered, if_neg ordered, castInt_of_small low high]

/-- **The integers of the source do not matter** for fewer than `2 ^ 31` keys. -/
theorem findIterator_eq (few : data.length < 2 ^ 31) : findIterator cmp data key = some (findIndex cmp data key) := by
  have bounds : -1 ≤ (data.length : Int) - 1 ∧ (data.length : Int) - 1 < 2 ^ 31 := by omega
  have enough : (data.length : Int) - 1 - 0 + 1 < ((data.length + 1 : Nat) : Int) := by
    push_cast
    omega
  have order : (0 : Int) ≤ (data.length : Int) - 1 + 1 := by omega
  have last : (data.length : Int) - 1 < data.length := by omega
  have loop := @findLoop_eq _ _ cmp _ _ data key few (data.length + 1) 0 (data.length - 1) le_rfl order last enough
  rw [findIterator, findInt, castInt_castSizeT bounds.1 bounds.2, loop, findIndex, binarySearch, Option.map_some]
  generalize searchLoop cmp (fun position => data[position]?.map Prod.fst) key (data.length + 1) 0
    ((data.length : Int) - 1) = found
  rcases found with _ | _ | position
  · exact congrArg some (Int.toNat_natCast _)
  · exact congrArg some (Int.toNat_natCast _)
  · exact congrArg some (Int.toNat_natCast _)

theorem insertInt_eq (few : data.length < 2 ^ 31) (entry : κ × ν) :
    insertInt cmp data entry = some (insert cmp data entry) := by
  rw [insertInt, findIterator_eq few, insert]
  simp only [Option.bind_eq_bind, Option.bind_some]
  split_ifs <;> rfl

end Facts

/-! ### Calls -/

section Calls

variable (cmp : κ → κ → Ordering) [Inhabited ν]

/-- A call of the map; what `operator[]` returns is a reference, and a value may be assigned to it. -/
inductive Call (κ ν : Type) where
  | insert (key : κ) (value : ν)
  | index (key : κ)
  | assign (key : κ) (value : ν)

/-- What a call returns: the position of the entry and whether it is new, or the value that is referred to. -/
inductive Returned (ν : Type) where
  | insert (position : Nat) (isNew : Bool)
  | index (value : ν)
deriving DecidableEq

/-- A call: the vector afterwards and what is returned. -/
def step (data : VectorMap κ ν) : Call κ ν → Option (VectorMap κ ν × Returned ν)
  | .insert key value => do
    let (data, position, isNew) ← insertInt cmp data (key, value)
    return (data, .insert position isNew)
  | .index key => do
    let (data, position, _) ← insertInt cmp data (key, default)
    let entry ← data[position]?
    return (data, .index entry.2)
  | .assign key value => do
    let (data, position, _) ← insertInt cmp data (key, default)
    return (data.set position (key, value), .index value)

/-- The vector after calls from the empty one on. -/
def run (calls : List (Call κ ν)) : Option (VectorMap κ ν) :=
  calls.foldlM (fun data call => (step cmp data call).map Prod.fst) []

def Call.key : Call κ ν → κ
  | .insert key _ => key
  | .index key => key
  | .assign key _ => key

/-- The map that a call makes of a map. -/
def Call.apply [DecidableEq κ] (map : κ → Option ν) : Call κ ν → κ → Option ν
  | .insert key value => Function.update map key (some ((map key).getD value))
  | .index key => Function.update map key (some ((map key).getD default))
  | .assign key value => Function.update map key (some value)

/-- The map that calls make of the empty map. -/
def mapOf [DecidableEq κ] (calls : List (Call κ ν)) : κ → Option ν := calls.foldl Call.apply fun _ => none

/-- The vector is the map: its keys are increasing, and `find` is the look-up, at the position of the entry or at the end. -/
structure Represents (data : VectorMap κ ν) (map : κ → Option ν) : Prop where
  sorted : Sorted cmp data
  found : ∀ key value, map key = some value →
    ∃ position, findIterator cmp data key = some position ∧ data[position]? = some (key, value)
  missing : ∀ key, map key = none → findIterator cmp data key = some data.length

end Calls

section Refinement

variable {cmp : κ → κ → Ordering} [Std.TransCmp cmp] [Std.LawfulEqCmp cmp] [Inhabited ν] [DecidableEq κ]
variable {data : VectorMap κ ν} {map : κ → Option ν}

/-- The invariant of a run: the entries of the map, with increasing keys. -/
structure Holds (cmp : κ → κ → Ordering) (data : VectorMap κ ν) (map : κ → Option ν) : Prop where
  sorted : Sorted cmp data
  mem_iff : ∀ key value, (key, value) ∈ data ↔ map key = some value

theorem Holds.represents (holds : Holds cmp data map) (few : data.length < 2 ^ 31) : Represents cmp data map := by
  refine ⟨holds.sorted, fun key value stored => ?_, fun key absent => ?_⟩
  · obtain ⟨position, at_⟩ := List.getElem?_of_mem ((holds.mem_iff key value).mpr stored)
    exact ⟨position, by rw [findIterator_eq few, findIndex_of_getElem holds.sorted at_], at_⟩
  · rw [findIterator_eq few, findIndex_of_notMem holds.sorted]
    intro member
    obtain ⟨⟨key', value⟩, inside, rfl⟩ := List.mem_map.mp member
    rw [(holds.mem_iff key' value).mp inside] at absent
    cases absent

/-- `insert` finds the entry of the key, or puts a new one between the smaller and the larger keys. -/
theorem Holds.insert_cases (holds : Holds cmp data map) (key : κ) (value : ν) :
    (∃ low old high, data = low ++ (key, old) :: high ∧ map key = some old ∧
        insert cmp data (key, value) = (data, low.length, false)) ∨
      (map key = none ∧ ∃ low high, data = low ++ high ∧
        insert cmp data (key, value) = (low ++ (key, value) :: high, low.length, true) ∧
        Sorted cmp (low ++ (key, value) :: high)) := by
  cases stored : map key with
  | some old =>
    obtain ⟨low, high, rfl⟩ := List.append_of_mem ((holds.mem_iff key old).mpr stored)
    exact .inl ⟨low, old, high, rfl, rfl, insert_of_mem holds.sorted value⟩
  | none =>
    have absent : key ∉ data.map Prod.fst := by
      intro member
      obtain ⟨⟨key', value'⟩, inside, rfl⟩ := List.mem_map.mp member
      rw [(holds.mem_iff key' value').mp inside] at stored
      cases stored
    obtain ⟨low, high, split, result, sorted⟩ := insert_of_notMem holds.sorted absent value
    exact .inr ⟨rfl, low, high, split, result, sorted⟩

/-- The entry of a key takes another value. -/
theorem Holds.set {low high : VectorMap κ ν} {key : κ} {old : ν} (holds : Holds cmp (low ++ (key, old) :: high) map)
    (value : ν) : Holds cmp (low ++ (key, value) :: high) (Function.update map key (some value)) := by
  have nodup := holds.sorted.nodup
  rw [List.map_append, List.map_cons, List.nodup_middle, List.nodup_cons, List.mem_append, not_or] at nodup
  refine ⟨?_, fun other value' => ?_⟩
  · have sorted := holds.sorted
    unfold Sorted at sorted ⊢
    rwa [List.map_append, List.map_cons] at sorted ⊢
  · have before := holds.mem_iff other value'
    rw [List.mem_append, List.mem_cons] at before ⊢
    by_cases same : other = key
    · subst same
      have notLow : (other, value') ∉ low := fun member => nodup.1.1 (List.mem_map.mpr ⟨_, member, rfl⟩)
      have notHigh : (other, value') ∉ high := fun member => nodup.1.2 (List.mem_map.mpr ⟨_, member, rfl⟩)
      rw [Function.update_self]
      simp only [notLow, notHigh, false_or, or_false, Prod.mk.injEq, true_and, Option.some.injEq, eq_comm]
    · rw [Function.update_of_ne same, ← before]
      simp only [Prod.mk.injEq, same, false_and]

/-- A new entry. -/
theorem Holds.put {low high : VectorMap κ ν} {key : κ} (holds : Holds cmp (low ++ high) map) (absent : map key = none)
    {value : ν} (sorted : Sorted cmp (low ++ (key, value) :: high)) :
    Holds cmp (low ++ (key, value) :: high) (Function.update map key (some value)) := by
  refine ⟨sorted, fun other value' => ?_⟩
  have before := holds.mem_iff other value'
  rw [List.mem_append] at before
  rw [List.mem_append, List.mem_cons, or_left_comm, before]
  by_cases same : other = key
  · subst same
    rw [absent, Function.update_self]
    simp [eq_comm]
  · rw [Function.update_of_ne same]
    simp [same]

theorem keys_set (low : VectorMap κ ν) (key : κ) (old value : ν) (high : VectorMap κ ν) :
    (low ++ (key, value) :: high).map Prod.fst ⊆ key :: (low ++ (key, old) :: high).map Prod.fst := by
  intro other member
  rw [List.map_append, List.map_cons] at member
  rw [List.map_append, List.map_cons]
  exact List.mem_cons_of_mem _ member

theorem keys_put (low : VectorMap κ ν) (key : κ) (value : ν) (high : VectorMap κ ν) :
    (low ++ (key, value) :: high).map Prod.fst ⊆ key :: (low ++ high).map Prod.fst := by
  intro other member
  rw [List.map_append, List.map_cons, List.mem_append, List.mem_cons] at member
  rw [List.mem_cons, List.map_append, List.mem_append]
  exact or_left_comm.mp member

/-- `operator[]`. -/
theorem Holds.index (holds : Holds cmp data map) (few : data.length < 2 ^ 31) (key : κ) :
    ∃ data', VectorMap.step cmp data (.index key) = some (data', .index ((map key).getD default)) ∧
      Holds cmp data' ((Call.index key).apply map) ∧ data'.map Prod.fst ⊆ key :: data.map Prod.fst := by
  rcases holds.insert_cases key default with ⟨low, old, high, rfl, stored, result⟩ | ⟨absent, low, high, rfl, result, sorted⟩
  · refine ⟨low ++ (key, old) :: high, ?_, ?_, keys_set low key old old high⟩
    · rw [VectorMap.step, insertInt_eq few, result, stored]
      simp only [Option.bind_eq_bind, Option.bind_some, getElem?_middle]
      rfl
    · rw [Call.apply, stored]
      exact holds.set old
  · refine ⟨low ++ (key, default) :: high, ?_, ?_, keys_put low key default high⟩
    · rw [VectorMap.step, insertInt_eq few, result, absent]
      simp only [Option.bind_eq_bind, Option.bind_some, getElem?_middle]
      rfl
    · rw [Call.apply, absent]
      exact holds.put absent sorted

/-- **One call** on fewer than `2 ^ 31` keys. -/
theorem Holds.step (holds : Holds cmp data map) (few : data.length < 2 ^ 31) (call : Call κ ν) :
    ∃ data' returned, VectorMap.step cmp data call = some (data', returned) ∧ Holds cmp data' (call.apply map) ∧
      data'.map Prod.fst ⊆ call.key :: data.map Prod.fst := by
  cases call with
  | insert key value =>
    rcases holds.insert_cases key value with ⟨low, old, high, rfl, stored, result⟩ | ⟨absent, low, high, rfl, result, sorted⟩
    · refine ⟨_, _, by rw [VectorMap.step, insertInt_eq few, result]; rfl, ?_, keys_set low key old old high⟩
      rw [Call.apply, stored]
      exact holds.set old
    · refine ⟨_, _, by rw [VectorMap.step, insertInt_eq few, result]; rfl, ?_, keys_put low key value high⟩
      rw [Call.apply, absent]
      exact holds.put absent sorted
  | index key =>
    obtain ⟨data', next, holds', keys⟩ := holds.index few key
    exact ⟨data', _, next, holds', keys⟩
  | assign key value =>
    rcases holds.insert_cases key default with ⟨low, old, high, rfl, stored, result⟩ | ⟨absent, low, high, rfl, result, sorted⟩
    · refine ⟨low ++ (key, value) :: high, .index value, ?_, holds.set value, keys_set low key old value high⟩
      rw [VectorMap.step, insertInt_eq few, result]
      simp only [Option.bind_eq_bind, Option.bind_some, set_middle]
      rfl
    · have put := (holds.put absent sorted).set value
      rw [Function.update_idem] at put
      refine ⟨low ++ (key, value) :: high, .index value, ?_, put, keys_put low key value high⟩
      rw [VectorMap.step, insertInt_eq few, result]
      simp only [Option.bind_eq_bind, Option.bind_some, set_middle]
      rfl

/-- A vector with the keys of calls has no more entries than these. -/
theorem Holds.length_le (holds : Holds cmp data map) {calls : List (Call κ ν)}
    (keys : data.map Prod.fst ⊆ calls.map Call.key) : data.length ≤ (calls.map Call.key).toFinset.card := by
  calc data.length = (data.map Prod.fst).toFinset.card := by
        rw [List.toFinset_card_of_nodup holds.sorted.nodup, List.length_map]
    _ ≤ (calls.map Call.key).toFinset.card := by
        refine Finset.card_le_card fun key member => ?_
        exact List.mem_toFinset.mpr (keys (List.mem_toFinset.mp member))

/-- **A run of calls** with fewer than `2 ^ 31` keys. -/
theorem run_holds (calls : List (Call κ ν)) (few : (calls.map Call.key).toFinset.card < 2 ^ 31) :
    ∃ data, run cmp calls = some data ∧ Holds cmp data (mapOf calls) ∧ data.map Prod.fst ⊆ calls.map Call.key := by
  induction calls using List.reverseRecOn with
  | nil =>
    refine ⟨[], rfl, ⟨List.Pairwise.nil, fun key value => ?_⟩, List.Subset.refl _⟩
    exact iff_of_false List.not_mem_nil (Option.some_ne_none value).symm
  | append_singleton calls call ih =>
    have fewer : (calls.map Call.key).toFinset.card ≤ ((calls ++ [call]).map Call.key).toFinset.card := by
      rw [List.map_append]
      exact Finset.card_le_card fun key member => List.mem_toFinset.mpr
        (List.mem_append_left _ (List.mem_toFinset.mp member))
    obtain ⟨data, result, holds, keys⟩ := ih (lt_of_le_of_lt fewer few)
    have small : data.length < 2 ^ 31 := lt_of_le_of_lt ((holds.length_le keys).trans fewer) few
    obtain ⟨data', returned, next, holds', keys'⟩ := holds.step small call
    refine ⟨data', ?_, ?_, ?_⟩
    · rw [run] at result ⊢
      rw [List.foldlM_append, result]
      show ((VectorMap.step cmp data call).map Prod.fst).bind _ = _
      rw [next]
      rfl
    · rw [mapOf, List.foldl_append]
      exact holds'
    · intro key member
      rw [List.map_append, List.map_singleton, List.mem_append, List.mem_singleton]
      rcases List.mem_cons.mp (keys' member) with same | old
      · exact .inr same
      · exact .inl (keys old)

/-- **A `VectorMap` is a finite map.** After any calls with fewer than `2 ^ 31` keys the vector is the map that the calls
make: its keys are increasing, and `find` gives the entry of a key, or the end. The next `insert` of a key that is
present changes nothing and says so; of one that is absent it adds the entry and nothing else, and returns the position
behind the re-ordering. `operator[]` refers to the value of a key, or to a fresh one. -/
theorem vectorMap_refines (calls : List (Call κ ν)) (few : (calls.map Call.key).toFinset.card < 2 ^ 31) :
    ∃ data, run cmp calls = some data ∧ Represents cmp data (mapOf calls) ∧
      (∀ key value old, mapOf calls key = some old → ∃ position,
        VectorMap.step cmp data (.insert key value) = some (data, .insert position false) ∧
          data[position]? = some (key, old)) ∧
      (∀ key value, mapOf calls key = none → ∃ low high, data = low ++ high ∧
        VectorMap.step cmp data (.insert key value) = some (low ++ (key, value) :: high, .insert low.length true) ∧
          Sorted cmp (low ++ (key, value) :: high)) ∧
      ∀ key, ∃ data', VectorMap.step cmp data (.index key) = some (data', .index ((mapOf calls key).getD default)) ∧
        ∀ key' value, (key', value) ∈ data' ↔ (Call.index key).apply (mapOf calls) key' = some value := by
  obtain ⟨data, result, holds, keys⟩ : ∃ data, run cmp calls = some data ∧ Holds cmp data (mapOf calls) ∧
      data.map Prod.fst ⊆ calls.map Call.key := run_holds calls few
  have small : data.length < 2 ^ 31 := lt_of_le_of_lt (holds.length_le keys) few
  refine ⟨data, result, holds.represents small, ?_, ?_, ?_⟩
  · intro key value old stored
    rcases holds.insert_cases key value with ⟨low, old', high, split, stored', inserted⟩ | ⟨absent, -⟩
    · obtain rfl := Option.some.inj (stored.symm.trans stored')
      refine ⟨low.length, by rw [VectorMap.step, insertInt_eq small, inserted]; rfl, ?_⟩
      rw [split]
      exact getElem?_middle low (key, old) high
    · rw [absent] at stored
      cases stored
  · intro key value absent
    rcases holds.insert_cases key value with ⟨low, old, high, split, stored, -⟩ | ⟨-, low, high, split, inserted, sorted⟩
    · rw [absent] at stored
      cases stored
    · exact ⟨low, high, split, by rw [VectorMap.step, insertInt_eq small, inserted]; rfl, sorted⟩
  · intro key
    obtain ⟨data', next, holds', -⟩ := holds.index small key
    exact ⟨data', next, holds'.mem_iff⟩

end Refinement

/-- Two tokens whose bytes come in another order than their ids, one of them twice. -/
def sampleCalls : List (Call EncodedToken Nat) :=
  [.assign (encodedToken 300 1) 7, .insert (encodedToken 200 2) 8, .index (encodedToken 300 1)]

theorem vectorMap_refines_tokens :
    ∃ data, run EncodedToken.compare sampleCalls = some data ∧ Represents EncodedToken.compare data (mapOf sampleCalls) ∧
      (∀ key value old, mapOf sampleCalls key = some old → ∃ position,
        VectorMap.step EncodedToken.compare data (.insert key value) = some (data, .insert position false) ∧
          data[position]? = some (key, old)) ∧
      (∀ key value, mapOf sampleCalls key = none → ∃ low high, data = low ++ high ∧
        VectorMap.step EncodedToken.compare data (.insert key value) =
            some (low ++ (key, value) :: high, .insert low.length true) ∧
          Sorted EncodedToken.compare (low ++ (key, value) :: high)) ∧
      ∀ key, ∃ data', VectorMap.step EncodedToken.compare data (.index key) =
          some (data', .index ((mapOf sampleCalls key).getD default)) ∧
        ∀ key' value, (key', value) ∈ data' ↔ (Call.index key).apply (mapOf sampleCalls) key' = some value :=
  vectorMap_refines sampleCalls (lt_of_le_of_lt (List.toFinset_card_le _) (by decide))

end VectorMap

end MathWebSearch
