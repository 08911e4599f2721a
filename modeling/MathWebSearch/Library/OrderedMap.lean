/-
**Ordered maps with iterators**, as an embedded key-value store offers them.

A map is the list of its entries in strictly increasing order of the keys. `seek` puts an iterator in front of the first
key that is not below the target; an iterator is what is still to come.

* `put_perm` — a new key is one more entry, and no other is touched.
* `get_put` — a value is found under its key, and the other keys keep theirs.
* `takeWhile_seek` — the entries of a range of keys, as an iterator comes to them.
* `prefix_of_between` — in the order of texts, what lies between `front` and `front ++ [last]` begins with `front`.
-/

import Mathlib

/-- Entries in strictly increasing order of their keys. -/
structure OrderedMap (κ ν : Type) [LinearOrder κ] where
  entries : List (κ × ν)
  sorted : entries.Pairwise fun first second => first.1 < second.1

namespace OrderedMap

variable {κ ν : Type} [LinearOrder κ]

/-- No entries. -/
def empty : OrderedMap κ ν := ⟨[], .nil⟩

/-- An entry put in its place; the value of a key that is there is replaced. -/
def putEntry (key : κ) (value : ν) : List (κ × ν) → List (κ × ν)
  | [] => [(key, value)]
  | entry :: rest =>
    if key < entry.1 then (key, value) :: entry :: rest
    else if key = entry.1 then (key, value) :: rest
    else entry :: putEntry key value rest

theorem mem_putEntry {key : κ} {value : ν} {other : κ × ν} {entries : List (κ × ν)}
    (member : other ∈ putEntry key value entries) : other = (key, value) ∨ other ∈ entries := by
  induction entries with
  | nil => exact .inl (List.mem_singleton.mp member)
  | cons entry rest ih =>
    rw [putEntry] at member
    split_ifs at member
    · exact List.mem_cons.mp member
    · exact (List.mem_cons.mp member).imp_right (List.mem_cons_of_mem _)
    · rcases List.mem_cons.mp member with rfl | member
      · exact .inr List.mem_cons_self
      · exact (ih member).imp_right (List.mem_cons_of_mem _)

theorem sorted_putEntry (key : κ) (value : ν) {entries : List (κ × ν)}
    (sorted : entries.Pairwise fun first second => first.1 < second.1) :
    (putEntry key value entries).Pairwise fun first second => first.1 < second.1 := by
  induction entries with
  | nil => exact List.pairwise_singleton _ _
  | cons entry rest ih =>
    obtain ⟨above, sortedRest⟩ := List.pairwise_cons.mp sorted
    rw [putEntry]
    split_ifs with below equal
    · refine List.pairwise_cons.mpr ⟨fun other member => ?_, sorted⟩
      rcases List.mem_cons.mp member with rfl | member
      · exact below
      · exact below.trans (above other member)
    · exact List.pairwise_cons.mpr ⟨fun other member => equal ▸ above other member, sortedRest⟩
    · refine List.pairwise_cons.mpr ⟨fun other member => ?_, ih sortedRest⟩
      rcases mem_putEntry member with rfl | member
      · exact lt_of_le_of_ne (not_lt.mp below) fun same => equal same.symm
      · exact above other member

/-- Storing a value under a key. -/
def put (self : OrderedMap κ ν) (key : κ) (value : ν) : OrderedMap κ ν :=
  ⟨putEntry key value self.entries, sorted_putEntry key value self.sorted⟩

theorem putEntry_perm {key : κ} (value : ν) {entries : List (κ × ν)} (fresh : key ∉ entries.map Prod.fst) :
    (putEntry key value entries).Perm ((key, value) :: entries) := by
  induction entries with
  | nil => exact .refl _
  | cons entry rest ih =>
    rw [List.map_cons, List.mem_cons, not_or] at fresh
    rw [putEntry]
    split_ifs with below equal
    · exact .refl _
    · exact absurd equal fresh.1
    · exact ((ih fresh.2).cons entry).trans (.swap _ _ _)

/-- **A new key is one more entry.** -/
theorem put_perm (self : OrderedMap κ ν) {key : κ} (value : ν) (fresh : key ∉ self.entries.map Prod.fst) :
    (self.put key value).entries.Perm ((key, value) :: self.entries) := putEntry_perm value fresh

/-! ### Single keys -/

/-- The value under a key. -/
def get (self : OrderedMap κ ν) (key : κ) : Option ν := (self.entries.find? fun entry => entry.1 = key).map Prod.snd

theorem find?_putEntry (key : κ) (value : ν) (entries : List (κ × ν)) (wanted : κ) :
    (putEntry key value entries).find? (fun entry => entry.1 = wanted) =
      if key = wanted then some (key, value) else entries.find? fun entry => entry.1 = wanted := by
  induction entries with
  | nil => rw [putEntry, List.find?_singleton, List.find?_nil]; simp only [decide_eq_true_iff]
  | cons entry rest ih =>
    by_cases same : key = wanted
    · rw [if_pos same] at ih ⊢
      rw [putEntry]
      split_ifs with below equal
      · exact List.find?_cons_of_pos (decide_eq_true same)
      · exact List.find?_cons_of_pos (decide_eq_true same)
      · rw [List.find?_cons_of_neg (by simpa [← same] using fun found => equal found.symm), ih]
    · rw [if_neg same] at ih ⊢
      rw [putEntry]
      split_ifs with below equal
      · exact List.find?_cons_of_neg (by simpa using same)
      · rw [List.find?_cons_of_neg (by simpa using same), List.find?_cons_of_neg (by simpa [← equal] using same)]
      · rw [List.find?_cons, List.find?_cons, ih]

/-- **A value is found under its key**, and the other keys keep theirs. -/
theorem get_put (self : OrderedMap κ ν) (key : κ) (value : ν) (wanted : κ) :
    (self.put key value).get wanted = if key = wanted then some value else self.get wanted := by
  rw [get, put, find?_putEntry]
  split_ifs <;> rfl

theorem get_empty (wanted : κ) : (empty : OrderedMap κ ν).get wanted = none := rfl

/-! ### Iterators -/

/-- An iterator in front of the first key that is not below `target`. -/
def seek (self : OrderedMap κ ν) (target : κ) : List (κ × ν) := self.entries.dropWhile fun entry => entry.1 < target

theorem dropWhile_eq_filter (target : κ) {entries : List (κ × ν)}
    (sorted : entries.Pairwise fun first second => first.1 < second.1) :
    (entries.dropWhile fun entry => entry.1 < target) = entries.filter fun entry => target ≤ entry.1 := by
  induction entries with
  | nil => rfl
  | cons entry rest ih =>
    obtain ⟨above, sortedRest⟩ := List.pairwise_cons.mp sorted
    by_cases below : entry.1 < target
    · rw [List.dropWhile_cons_of_pos (by simpa using below), List.filter_cons_of_neg (by simpa using below)]
      exact ih sortedRest
    · rw [List.dropWhile_cons_of_neg (by simpa using below)]
      refine (List.filter_eq_self.mpr fun other member => ?_).symm
      rcases List.mem_cons.mp member with rfl | member
      · simpa using below
      · simpa using (not_lt.mp below).trans (above other member).le

/-- The keys from `target` on. -/
theorem seek_eq_filter (self : OrderedMap κ ν) (target : κ) :
    self.seek target = self.entries.filter fun entry => target ≤ entry.1 := dropWhile_eq_filter target self.sorted

theorem takeWhile_eq_filter (bound : κ) {entries : List (κ × ν)}
    (sorted : entries.Pairwise fun first second => first.1 < second.1) :
    (entries.takeWhile fun entry => entry.1 < bound) = entries.filter fun entry => entry.1 < bound := by
  induction entries with
  | nil => rfl
  | cons entry rest ih =>
    obtain ⟨above, sortedRest⟩ := List.pairwise_cons.mp sorted
    by_cases below : entry.1 < bound
    · rw [List.takeWhile_cons_of_pos (by simpa using below), List.filter_cons_of_pos (by simpa using below),
        ih sortedRest]
    · rw [List.takeWhile_cons_of_neg (by simpa using below)]
      refine (List.filter_eq_nil_iff.mpr fun other member => ?_).symm
      rcases List.mem_cons.mp member with rfl | member
      · simpa using below
      · simpa using (not_lt.mp below).trans (above other member).le

/-- An iterator that goes on beyond a bound meets nothing below it any more. -/
theorem takeWhile_drop (bound : κ) {entries : List (κ × ν)}
    (sorted : entries.Pairwise fun first second => first.1 < second.1) (count : Nat) :
    ((entries.drop count).takeWhile fun entry => entry.1 < bound) =
      (entries.takeWhile fun entry => entry.1 < bound).drop count := by
  induction entries generalizing count with
  | nil => simp
  | cons entry rest ih =>
    obtain ⟨above, sortedRest⟩ := List.pairwise_cons.mp sorted
    cases count with
    | zero => rfl
    | succ count =>
      rw [List.drop_succ_cons, ih sortedRest]
      by_cases below : entry.1 < bound
      · rw [List.takeWhile_cons_of_pos (by simpa using below), List.drop_succ_cons]
      · have nothing : (rest.takeWhile fun entry => decide (entry.1 < bound)) = [] := by
          rw [takeWhile_eq_filter bound sortedRest]
          refine List.filter_eq_nil_iff.mpr fun other member => ?_
          simpa using (not_lt.mp below).trans (above other member).le
        rw [List.takeWhile_cons_of_neg (by simpa using below), nothing, List.drop_nil, List.drop_nil]

/-- **The entries of a range of keys** are what an iterator comes to from the low end on until it meets the high end,
also when it leaves out the first ones. -/
theorem takeWhile_seek (self : OrderedMap κ ν) {low high : κ} {below within : κ × ν → Bool}
    (below_iff : ∀ entry, below entry ↔ entry.1 < high)
    (within_iff : ∀ entry, within entry ↔ low ≤ entry.1 ∧ entry.1 < high) (count : Nat) :
    ((self.seek low).drop count).takeWhile below = (self.entries.filter within).drop count := by
  have sorted := self.sorted.filter fun entry => decide (low ≤ entry.1)
  have same : below = fun entry => decide (entry.1 < high) := by
    funext entry
    rw [Bool.eq_iff_iff, below_iff, decide_eq_true_iff]
  rw [same, seek_eq_filter, takeWhile_drop high sorted, takeWhile_eq_filter high sorted, List.filter_filter]
  refine congrArg (List.drop count) (List.filter_congr fun entry _ => ?_)
  rw [Bool.eq_iff_iff, within_iff, Bool.and_eq_true, decide_eq_true_iff, decide_eq_true_iff]
  exact And.comm

/-- Two entries of one key are one entry. -/
theorem eq_of_key_eq {entries : List (κ × ν)} (sorted : entries.Pairwise fun first second => first.1 < second.1)
    {first second : κ × ν} (among : first ∈ entries) (among' : second ∈ entries) (same : first.1 = second.1) :
    first = second := by
  have apart : (entries.map Prod.fst).Nodup := List.pairwise_map.mpr (sorted.imp fun less => less.ne)
  exact List.inj_on_of_nodup_map apart among among' same

end OrderedMap

/-! ### Texts with a common front -/

namespace OrderedMap

section Texts

variable {α : Type} [LinearOrder α]

/-- **What lies between a front and the front with one more character** begins with the front. -/
theorem prefix_of_between {front : List α} : ∀ {key : List α} {last : α}, front ≤ key → key < front ++ [last] →
    front <+: key := by
  induction front with
  | nil => intro key last _ _; exact List.nil_prefix
  | cons char front ih =>
    intro key last low high
    cases key with
    | nil => exact absurd low (not_le.mpr (List.nil_lt_cons char front))
    | cons char' key =>
      rw [List.cons_append, List.cons_lt_cons_iff] at high
      rw [← not_lt, List.cons_lt_cons_iff, not_or] at low
      rcases high with smaller | ⟨rfl, high⟩
      · exact absurd smaller low.1
      · have low : front ≤ key := not_lt.mp fun less => low.2 ⟨rfl, less⟩
        exact List.cons_prefix_cons.mpr ⟨rfl, ih low high⟩

theorem le_append (front back : List α) : front ≤ front ++ back := by
  induction front with
  | nil => exact not_lt.mp (List.not_lt_nil _)
  | cons char front ih =>
    rw [List.cons_append, ← not_lt, List.cons_lt_cons_iff]
    rintro (smaller | ⟨-, less⟩)
    · exact lt_irrefl _ smaller
    · exact not_lt.mpr ih less

theorem append_lt_append (front : List α) {first second : List α} (less : first < second) :
    front ++ first < front ++ second := by
  induction front with
  | nil => exact less
  | cons char front ih =>
    rw [List.cons_append, List.cons_append, List.cons_lt_cons_iff]
    exact .inr ⟨rfl, ih⟩

end Texts

end OrderedMap
