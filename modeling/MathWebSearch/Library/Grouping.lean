/-
**Groups by key.**

Entries are a key with an item. Each item is put to the group of its key, or starts a group behind the others.

* `add` — one item; `groups` — all entries, one after the other.
* `mem_groups_iff` — there is one group for every key that occurs, and it has the items of the key in their order.
* `perm_groups` — the groups are a partition of the items.
* `foldl_update` — a table that is written for every item has what was written for one item of the key.
-/

import Mathlib

namespace Grouping

variable {κ ι : Type} [DecidableEq κ]

/-- The item is put to the group of the key. -/
def add (key : κ) (item : ι) : List (κ × List ι) → List (κ × List ι)
  | [] => [(key, [item])]
  | group :: rest => if group.1 = key then (group.1, group.2 ++ [item]) :: rest else group :: add key item rest

/-- The groups of entries. -/
def groups (entries : List (κ × ι)) : List (κ × List ι) :=
  entries.foldl (fun groups entry => add entry.1 entry.2 groups) []

/-- The items of a key. -/
def itemsOf (key : κ) (entries : List (κ × ι)) : List ι :=
  (entries.filter fun entry => entry.1 = key).map Prod.snd

theorem groups_concat (entries : List (κ × ι)) (entry : κ × ι) :
    groups (entries ++ [entry]) = add entry.1 entry.2 (groups entries) := by
  rw [groups, List.foldl_append]
  rfl

theorem itemsOf_concat (key : κ) (entries : List (κ × ι)) (entry : κ × ι) :
    itemsOf key (entries ++ [entry]) = itemsOf key entries ++ if entry.1 = key then [entry.2] else [] := by
  unfold itemsOf
  rw [List.filter_append, List.map_append]
  split_ifs with same <;> simp [same]

theorem mem_itemsOf {key : κ} {entries : List (κ × ι)} {item : ι} :
    item ∈ itemsOf key entries ↔ (key, item) ∈ entries := by
  unfold itemsOf
  simp

theorem itemsOf_eq_nil {key : κ} {entries : List (κ × ι)} (absent : key ∉ entries.map Prod.fst) :
    itemsOf key entries = [] := by
  refine List.map_eq_nil_iff.mpr (List.filter_eq_nil_iff.mpr fun entry member => ?_)
  rw [decide_eq_true_iff]
  exact fun same => absent (same ▸ List.mem_map_of_mem (f := Prod.fst) member)

/-- No key is new but the one of the item. -/
theorem mem_keys_add {key other : κ} {item : ι} {entries : List (κ × List ι)} :
    other ∈ (add key item entries).map Prod.fst ↔ other = key ∨ other ∈ entries.map Prod.fst := by
  induction entries with
  | nil => simp [add]
  | cons group rest ih =>
    rw [add]
    split_ifs with same
    · rw [List.map_cons, List.map_cons, List.mem_cons, same]
      exact ⟨.inr, fun either => either.elim .inl id⟩
    · rw [List.map_cons, List.map_cons, List.mem_cons, List.mem_cons, ih, or_left_comm]

theorem nodup_add {key : κ} {item : ι} {entries : List (κ × List ι)} (nodup : (entries.map Prod.fst).Nodup) :
    ((add key item entries).map Prod.fst).Nodup := by
  induction entries with
  | nil => exact List.nodup_singleton key
  | cons group rest ih =>
    rw [List.map_cons, List.nodup_cons] at nodup
    rw [add]
    split_ifs with same
    · exact List.nodup_cons.mpr nodup
    · refine List.nodup_cons.mpr ⟨fun member => ?_, ih nodup.2⟩
      exact (mem_keys_add.mp member).elim same nodup.1

/-- The groups behind one more item. -/
theorem mem_add_iff {key other : κ} {item : ι} {items : List ι} {entries : List (κ × List ι)}
    (nodup : (entries.map Prod.fst).Nodup) :
    (other, items) ∈ add key item entries ↔
      (other ≠ key ∧ (other, items) ∈ entries) ∨
        (other = key ∧ ((∃ before, (key, before) ∈ entries ∧ items = before ++ [item]) ∨
          (key ∉ entries.map Prod.fst ∧ items = [item]))) := by
  induction entries with
  | nil => simp [add]
  | cons group rest ih =>
    obtain ⟨first, before⟩ := group
    rw [List.map_cons, List.nodup_cons] at nodup
    have inRest : ∀ {some : κ} {items : List ι}, (some, items) ∈ rest → some ∈ rest.map Prod.fst :=
      fun member => List.mem_map_of_mem (f := Prod.fst) member
    rw [add]
    split_ifs with same
    · obtain rfl : first = key := same
      rw [List.mem_cons, List.mem_cons, Prod.mk.injEq, Prod.mk.injEq]
      constructor
      · rintro (⟨rfl, rfl⟩ | member)
        · exact .inr ⟨rfl, .inl ⟨before, List.mem_cons_self, rfl⟩⟩
        · exact .inl ⟨fun equal => nodup.1 (equal ▸ inRest member), .inr member⟩
      · rintro (⟨different, ⟨equal, -⟩ | member⟩ | ⟨rfl, ⟨before', among, rfl⟩ | ⟨absent, -⟩⟩)
        · exact absurd equal different
        · exact .inr member
        · rcases List.mem_cons.mp among with equal | among
          · exact .inl ⟨rfl, by rw [(Prod.mk.inj equal).2]⟩
          · exact absurd (inRest among) nodup.1
        · exact absurd List.mem_cons_self absent
    · have different : first ≠ key := same
      rw [List.mem_cons, ih nodup.2, List.mem_cons, Prod.mk.injEq]
      constructor
      · rintro (⟨rfl, rfl⟩ | ⟨other', member⟩ | ⟨rfl, ⟨before', among, rfl⟩ | ⟨absent, rfl⟩⟩)
        · exact .inl ⟨different, .inl ⟨rfl, rfl⟩⟩
        · exact .inl ⟨other', .inr member⟩
        · exact .inr ⟨rfl, .inl ⟨before', List.mem_cons_of_mem _ among, rfl⟩⟩
        · refine .inr ⟨rfl, .inr ⟨fun member => ?_, rfl⟩⟩
          exact (List.mem_cons.mp member).elim (fun equal => different equal.symm) absent
      · rintro (⟨other', ⟨rfl, rfl⟩ | member⟩ | ⟨rfl, ⟨before', among, rfl⟩ | ⟨absent, rfl⟩⟩)
        · exact .inl ⟨rfl, rfl⟩
        · exact .inr (.inl ⟨other', member⟩)
        · rcases List.mem_cons.mp among with equal | among
          · exact absurd (Prod.mk.inj equal).1.symm different
          · exact .inr (.inr ⟨rfl, .inl ⟨before', among, rfl⟩⟩)
        · exact .inr (.inr ⟨rfl, .inr ⟨fun member => absent (List.mem_cons_of_mem _ member), rfl⟩⟩)

theorem nodup_groups (entries : List (κ × ι)) : ((groups entries).map Prod.fst).Nodup := by
  induction entries using List.reverseRecOn with
  | nil => exact List.nodup_nil
  | append_singleton entries entry ih => rw [groups_concat]; exact nodup_add ih

/-- **The groups**: one for every key that occurs, with its items in their order. -/
theorem mem_groups_iff (entries : List (κ × ι)) : ∀ {key : κ} {items : List ι},
    (key, items) ∈ groups entries ↔ key ∈ entries.map Prod.fst ∧ items = itemsOf key entries := by
  induction entries using List.reverseRecOn with
  | nil => intro key items; simp [groups]
  | append_singleton entries entry ih =>
    intro key items
    have keys : entry.1 ∉ (groups entries).map Prod.fst ↔ entry.1 ∉ entries.map Prod.fst := by
      refine not_congr ⟨fun member => ?_, fun member => ?_⟩
      · obtain ⟨⟨_, items⟩, among, rfl⟩ := List.mem_map.mp member
        exact (ih.mp among).1
      · exact List.mem_map_of_mem (f := Prod.fst) (ih.mpr ⟨member, rfl⟩)
    rw [groups_concat, mem_add_iff (nodup_groups entries), keys, List.map_append, List.mem_append, List.map_singleton,
      List.mem_singleton, itemsOf_concat]
    by_cases same : key = entry.1
    · subst same
      rw [if_pos rfl]
      constructor
      · rintro (⟨different, -⟩ | ⟨-, ⟨before, among, rfl⟩ | ⟨absent, rfl⟩⟩)
        · exact absurd rfl different
        · exact ⟨.inr rfl, by rw [(ih.mp among).2]⟩
        · exact ⟨.inr rfl, by rw [itemsOf_eq_nil absent, List.nil_append]⟩
      · rintro ⟨-, rfl⟩
        by_cases old : entry.1 ∈ entries.map Prod.fst
        · exact .inr ⟨rfl, .inl ⟨_, ih.mpr ⟨old, rfl⟩, rfl⟩⟩
        · exact .inr ⟨rfl, .inr ⟨old, by rw [itemsOf_eq_nil old, List.nil_append]⟩⟩
    · rw [if_neg fun equal => same equal.symm, List.append_nil, ih]
      constructor
      · rintro (⟨-, member, rfl⟩ | ⟨equal, -⟩)
        · exact ⟨.inl member, rfl⟩
        · exact absurd equal same
      · rintro ⟨member | equal, rfl⟩
        · exact .inl ⟨same, member, rfl⟩
        · exact absurd equal same

theorem perm_add (key : κ) (item : ι) (entries : List (κ × List ι)) :
    ((add key item entries).flatMap Prod.snd).Perm (entries.flatMap Prod.snd ++ [item]) := by
  induction entries with
  | nil => exact .refl _
  | cons group rest ih =>
    rw [add]
    split_ifs with same
    · rw [List.flatMap_cons, List.flatMap_cons, List.append_assoc, List.append_assoc]
      exact List.perm_append_comm.append_left group.2
    · rw [List.flatMap_cons, List.flatMap_cons, List.append_assoc]
      exact ih.append_left group.2

/-- **The groups are a partition of the items.** -/
theorem perm_groups (entries : List (κ × ι)) : ((groups entries).flatMap Prod.snd).Perm (entries.map Prod.snd) := by
  induction entries using List.reverseRecOn with
  | nil => exact .refl _
  | append_singleton entries entry ih =>
    rw [groups_concat, List.map_append]
    exact (perm_add entry.1 entry.2 (groups entries)).trans (ih.append_right [entry.2])

/-- **A table that is written for every entry**: what it has for a key was written for an entry with this key. -/
theorem foldl_update {α β : Type} (key : α → κ) (value : α → β) (entries : List α) : ∀ (table : κ → β) {some : κ},
    some ∈ entries.map key → ∃ entry ∈ entries, key entry = some ∧
      entries.foldl (fun table entry => Function.update table (key entry) (value entry)) table some = value entry := by
  induction entries using List.reverseRecOn with
  | nil => exact fun table some member => absurd member List.not_mem_nil
  | append_singleton entries entry ih =>
    intro table some member
    rw [List.foldl_append, List.foldl_cons, List.foldl_nil]
    by_cases last : key entry = some
    · subst last
      exact ⟨entry, List.mem_append_right _ List.mem_cons_self, rfl, Function.update_self ..⟩
    · rw [List.map_append, List.mem_append, List.map_singleton, List.mem_singleton] at member
      obtain ⟨other, among, same, found⟩ := ih table (member.resolve_right fun equal => last equal.symm)
      refine ⟨other, List.mem_append_left _ among, same, ?_⟩
      rw [Function.update_of_ne fun equal => last equal.symm]
      exact found

end Grouping
