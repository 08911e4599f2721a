/-
**The dictionary that numbers keys** (`common/types/IdDictionary.hpp`).

`put` gives a new key the next id, from 1 on; `get` of a key that is not there is `KEY_NOT_FOUND`. The
reverse lookup table lists the keys by their ids.

* `Numbered dictionary keys` — the dictionary holds exactly `keys`, each with its place in the list
  (from 1) as its id.
* `put_spec` — `put` keeps this up, for the list with the key added at its end when it is new
  (`List.concatNew`); `get_spec`, `reverseLookup_spec` read it.
-/

import Mathlib

namespace MathWebSearch

/-- `_map` and `_nextId`; the ids are `uint32_t`. -/
structure IdDictionary (Key : Type) where
  map : List (Key × Nat)
  nextId : Nat

namespace IdDictionary

variable {Key : Type} [DecidableEq Key]

def valueIdStart : Nat := 1
def keyNotFound : Nat := valueIdStart - 1

/-- `IdDictionary()`. -/
def empty : IdDictionary Key := ⟨[], valueIdStart⟩

def get (self : IdDictionary Key) (key : Key) : Nat := (self.map.lookup key).getD keyNotFound

/-- `put`; a key that got the id `KEY_NOT_FOUND` when the counter wrapped round is written again. -/
def put (self : IdDictionary Key) (key : Key) : IdDictionary Key × Nat :=
  if self.get key = keyNotFound then
    (⟨self.map.filter (fun entry => entry.1 ≠ key) ++ [(key, self.nextId)], (self.nextId + 1) % 2 ^ 32⟩,
      self.nextId)
  else (self, self.get key)

/-- `getReverseLookupTable`: every key is written to the place of its id. -/
def getReverseLookupTable [Inhabited Key] (self : IdDictionary Key) : List Key :=
  self.map.foldl (fun table elem => table.set (elem.2 - valueIdStart) elem.1)
    (List.replicate self.map.length default)

/-- `ReverseLookupTable::get`; `at` throws (`none`) outside of the table, also for the id 0, from which
the unsigned subtraction wraps round. -/
def reverseLookup (table : List Key) (valueId : Nat) : Option Key :=
  if valueId < valueIdStart then none else table[valueId - valueIdStart]?

/-! ### The numbering -/

/-- The list with a key at its end, unless it has it already. -/
def concatNew (keys : List Key) (key : Key) : List Key := if key ∈ keys then keys else keys ++ [key]

/-- The dictionary holds exactly `keys`, in the order of their ids. -/
structure Numbered (dictionary : IdDictionary Key) (keys : List Key) : Prop where
  nodup : keys.Nodup
  map_eq : dictionary.map = keys.zipIdx.map fun entry => (entry.1, entry.2 + 1)
  nextId_eq : dictionary.nextId = keys.length + 1
  small : keys.length < 2 ^ 32 - 1

omit [DecidableEq Key] in
theorem numbered_empty : (empty : IdDictionary Key).Numbered [] :=
  ⟨List.nodup_nil, rfl, rfl, by simp⟩

theorem lookup_zipIdx (keys : List Key) (start : Nat) (key : Key) :
    ((keys.zipIdx start).map fun entry => (entry.1, entry.2 + 1)).lookup key =
      if key ∈ keys then some (start + keys.idxOf key + 1) else none := by
  induction keys generalizing start with
  | nil => rfl
  | cons head rest ih =>
    rw [List.zipIdx_cons, List.map_cons, List.lookup_cons, ih]
    by_cases same : key = head
    · subst same
      simp
    · have different : (key == head) = false := by simpa using same
      rw [different, List.idxOf_cons_ne _ fun equal => same equal.symm]
      simp only [List.mem_cons, same, false_or]
      by_cases member : key ∈ rest
      · rw [if_pos member, if_pos member]
        congr 1
        omega
      · rw [if_neg member, if_neg member]

/-- **Reading a key**: its place in the list, or `KEY_NOT_FOUND`. -/
theorem get_spec {self : IdDictionary Key} {keys : List Key} (numbered : self.Numbered keys)
    (key : Key) : self.get key = if key ∈ keys then keys.idxOf key + 1 else keyNotFound := by
  rw [get, numbered.map_eq, lookup_zipIdx]
  by_cases member : key ∈ keys
  · rw [if_pos member, if_pos member, Option.getD_some, Nat.zero_add]
  · rw [if_neg member, if_neg member, Option.getD_none]

theorem get_eq_keyNotFound_iff {self : IdDictionary Key} {keys : List Key}
    (numbered : self.Numbered keys) {key : Key} : self.get key = keyNotFound ↔ key ∉ keys := by
  rw [get_spec numbered]
  by_cases member : key ∈ keys
  · simp [member, keyNotFound, valueIdStart]
  · simp [member]

/-- **Adding a key.** -/
theorem put_spec {self : IdDictionary Key} {keys : List Key} (numbered : self.Numbered keys)
    {key : Key} (small : (concatNew keys key).length < 2 ^ 32 - 1) :
    (self.put key).1.Numbered (concatNew keys key) ∧
      (self.put key).2 = (concatNew keys key).idxOf key + 1 := by
  by_cases member : key ∈ keys
  · have found : self.get key ≠ keyNotFound :=
      fun missing => (get_eq_keyNotFound_iff numbered).mp missing member
    rw [put, if_neg found, concatNew, if_pos member]
    exact ⟨numbered, by rw [get_spec numbered, if_pos member]⟩
  · rw [concatNew, if_neg member] at small ⊢
    have kept : self.map.filter (fun entry => entry.1 ≠ key) = self.map := by
      refine List.filter_eq_self.mpr fun entry among => decide_eq_true fun same => member ?_
      rw [numbered.map_eq] at among
      obtain ⟨⟨other, place⟩, inside, rfl⟩ := List.mem_map.mp among
      obtain rfl : other = key := same
      exact List.mem_of_getElem? (List.mk_mem_zipIdx_iff_getElem?.mp inside)
    rw [put, if_pos ((get_eq_keyNotFound_iff numbered).mpr member), kept]
    rw [List.length_append, List.length_singleton] at small
    refine ⟨⟨?_, ?_, ?_, ?_⟩, ?_⟩
    · exact List.Nodup.append numbered.nodup (List.nodup_singleton key) (by simpa using member)
    · rw [List.zipIdx_append, List.map_append, numbered.map_eq, numbered.nextId_eq]
      simp
    · rw [numbered.nextId_eq, List.length_append, List.length_singleton, Nat.mod_eq_of_lt (by omega)]
    · rw [List.length_append, List.length_singleton]
      exact small
    · rw [numbered.nextId_eq, List.idxOf_append_of_notMem member]
      simp

omit [DecidableEq Key] in
/-- Writing the keys one after the other behind `front`. -/
theorem foldl_set_zipIdx [Inhabited Key] (keys : List Key) (front : List Key) :
    ((keys.zipIdx front.length).map fun entry => (entry.1, entry.2 + 1)).foldl
        (fun table elem => table.set (elem.2 - valueIdStart) elem.1)
        (front ++ List.replicate keys.length default) = front ++ keys := by
  induction keys generalizing front with
  | nil => rfl
  | cons key rest ih =>
    have step := ih (front ++ [key])
    rw [List.length_append, List.length_singleton] at step
    simp only [List.append_assoc, List.singleton_append] at step
    rw [List.zipIdx_cons, List.map_cons, List.foldl_cons, ← step]
    congr 1
    simp [valueIdStart, List.replicate_succ, List.set_append_right]

omit [DecidableEq Key] in
/-- **The reverse lookup table lists the keys by their ids.** -/
theorem reverseLookup_spec [Inhabited Key] {self : IdDictionary Key} {keys : List Key}
    (numbered : self.Numbered keys) : self.getReverseLookupTable = keys := by
  rw [getReverseLookupTable, numbered.map_eq, List.length_map, List.length_zipIdx]
  exact foldl_set_zipIdx keys []

end IdDictionary

end MathWebSearch
