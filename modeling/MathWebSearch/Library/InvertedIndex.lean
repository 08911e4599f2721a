/-
**Inverted indexes.**

Sources have items, and an item has a key. For a key, an inverted index lists the sources in which it occurs, each with
the first item that has it.

* `firsts` — the items of a source that are the first with their keys.
* `postings` — the list of a key.
* `perm_postings` — **what is found**: the postings of different keys, one list behind the other, are the items of all
  sources that are the first with their keys and have one of these, in some order.
-/

import Mathlib

namespace InvertedIndex

variable {σ ι κ ρ : Type} [DecidableEq κ] (key : ι → κ)

/-- The items that are the first with their keys, behind items with the keys that have been seen. -/
def firstsBehind : List κ → List ι → List ι
  | _, [] => []
  | seen, item :: rest =>
    if key item ∈ seen then firstsBehind seen rest else item :: firstsBehind (key item :: seen) rest

/-- The items that are the first with their keys. -/
def firsts (items : List ι) : List ι := firstsBehind key [] items

/-- The first item with a key. -/
def posting? (items : List ι) (wanted : κ) : Option ι := items.find? fun item => key item = wanted

/-- The list of a key: what is recorded of the sources in which it occurs. -/
def postings (items : σ → List ι) (record : σ → ι → ρ) (sources : List σ) (wanted : κ) : List ρ :=
  sources.filterMap fun source => (posting? key (items source) wanted).map (record source)

variable {key}

/-! ### First items -/

theorem mem_firstsBehind {items : List ι} {item : ι} : ∀ {seen : List κ}, item ∈ firstsBehind key seen items →
    key item ∉ seen ∧ posting? key items (key item) = some item := by
  induction items with
  | nil => exact fun member => absurd member List.not_mem_nil
  | cons first rest ih =>
    intro seen member
    rw [firstsBehind] at member
    split_ifs at member with old
    · obtain ⟨new, found⟩ := ih member
      refine ⟨new, ?_⟩
      rw [posting?, List.find?_cons_of_neg, ← posting?, found]
      rw [decide_eq_true_iff]
      exact fun same => new (same ▸ old)
    · rcases List.mem_cons.mp member with rfl | member
      · exact ⟨old, List.find?_cons_of_pos (decide_eq_true rfl)⟩
      · obtain ⟨new, found⟩ := ih member
        rw [List.mem_cons, not_or] at new
        refine ⟨new.2, ?_⟩
        rw [posting?, List.find?_cons_of_neg, ← posting?, found]
        rw [decide_eq_true_iff]
        exact fun same => new.1 same.symm

/-- A first item is the one that is found for its key. -/
theorem posting?_of_mem_firsts {items : List ι} {item : ι} (member : item ∈ firsts key items) :
    posting? key items (key item) = some item := (mem_firstsBehind member).2

theorem mem_of_mem_firsts {items : List ι} {item : ι} (member : item ∈ firsts key items) : item ∈ items :=
  List.mem_of_find?_eq_some (posting?_of_mem_firsts member)

theorem nodup_firstsBehind (items : List ι) : ∀ seen, ((firstsBehind key seen items).map key).Nodup := by
  induction items with
  | nil => exact fun _ => List.nodup_nil
  | cons first rest ih =>
    intro seen
    rw [firstsBehind]
    split_ifs with old
    · exact ih seen
    · rw [List.map_cons, List.nodup_cons]
      refine ⟨fun member => ?_, ih _⟩
      obtain ⟨item, among, same⟩ := List.mem_map.mp member
      exact (mem_firstsBehind among).1 (same ▸ List.mem_cons_self)

/-- The keys of the first items are different. -/
theorem nodup_firsts (items : List ι) : ((firsts key items).map key).Nodup := nodup_firstsBehind items []

theorem key_mem_firstsBehind {items : List ι} {item : ι} (member : item ∈ items) : ∀ {seen : List κ}, key item ∉ seen →
    key item ∈ (firstsBehind key seen items).map key := by
  induction items with
  | nil => exact absurd member List.not_mem_nil
  | cons first rest ih =>
    intro seen new
    rw [firstsBehind]
    split_ifs with old
    · rcases List.mem_cons.mp member with rfl | member
      · exact absurd old new
      · exact ih member new
    · rw [List.map_cons, List.mem_cons]
      by_cases same : key item = key first
      · exact .inl same
      · refine .inr (ih ((List.mem_cons.mp member).resolve_left fun equal => same (by rw [equal])) ?_)
        rw [List.mem_cons, not_or]
        exact ⟨same, new⟩

/-- Every key has a first item. -/
theorem mem_keys_firsts {items : List ι} {wanted : κ} : wanted ∈ (firsts key items).map key ↔ wanted ∈ items.map key := by
  constructor
  · intro member
    obtain ⟨item, among, rfl⟩ := List.mem_map.mp member
    exact List.mem_map_of_mem (mem_of_mem_firsts among)
  · intro member
    obtain ⟨item, among, rfl⟩ := List.mem_map.mp member
    exact key_mem_firstsBehind among List.not_mem_nil

theorem firstsBehind_congr {κ' : Type} [DecidableEq κ'] {key' : ι → κ'} (items : List ι) : ∀ {seen : List ι},
    (∀ one ∈ items, ∀ other ∈ seen ++ items, key other = key one ↔ key' other = key' one) →
      firstsBehind key (seen.map key) items = firstsBehind key' (seen.map key') items := by
  induction items with
  | nil => exact fun _ => rfl
  | cons item rest ih =>
    intro seen same
    rw [List.forall_mem_cons] at same
    have member : key item ∈ seen.map key ↔ key' item ∈ seen.map key' := by
      rw [List.mem_map, List.mem_map]
      exact exists_congr fun other => and_congr_right fun inside => same.1 other (List.mem_append_left _ inside)
    rw [firstsBehind, firstsBehind]
    by_cases old : key item ∈ seen.map key
    · rw [if_pos old, if_pos (member.mp old)]
      refine ih fun one inside other among => same.2 one inside other ?_
      rcases List.mem_append.mp among with before | behind
      · exact List.mem_append_left _ before
      · exact List.mem_append_right _ (List.mem_cons_of_mem _ behind)
    · rw [if_neg old, if_neg (mt member.mpr old)]
      refine congrArg _ (@ih (item :: seen) fun one inside other among => same.2 one inside other ?_)
      rw [List.cons_append, List.mem_cons] at among
      rcases among with rfl | among
      · exact List.mem_append_right _ List.mem_cons_self
      · rcases List.mem_append.mp among with before | behind
        · exact List.mem_append_left _ before
        · exact List.mem_append_right _ (List.mem_cons_of_mem _ behind)

/-- Keys that tell the same items apart have the same first items. -/
theorem firsts_congr {κ' : Type} [DecidableEq κ'] {key' : ι → κ'} {items : List ι}
    (same : ∀ one ∈ items, ∀ other ∈ items, key other = key one ↔ key' other = key' one) :
    firsts key items = firsts key' items := @firstsBehind_congr ι κ _ key κ' _ key' items [] same

/-- A key that is found is one of an item. -/
theorem key_mem_of_posting? {items : List ι} {wanted : κ} {item : ι} (found : posting? key items wanted = some item) :
    wanted ∈ items.map key := by
  have same : decide (key item = wanted) = true := @List.find?_some _ _ item items found
  exact of_decide_eq_true same ▸ List.mem_map_of_mem (List.mem_of_find?_eq_some found)

/-! ### What is found -/

/-- Two loops, one inside the other, the other way round. -/
theorem perm_flatMap_filterMap {α β γ : Type} (outer : List α) (inner : List β) (f : α → β → Option γ) :
    (outer.flatMap fun one => inner.filterMap fun other => f one other).Perm
      (inner.flatMap fun other => outer.filterMap fun one => f one other) := by
  rw [← Multiset.coe_eq_coe]
  have each : ∀ {δ : Type} (items : List δ) (g : δ → Option γ), ((items.filterMap g : List γ) : Multiset γ) =
      Multiset.bind (items : Multiset δ) fun item => ((g item).toList : Multiset γ) := by
    intro δ items g
    rw [Multiset.coe_bind, List.filterMap_eq_flatMap_toList]
  rw [← Multiset.coe_bind, ← Multiset.coe_bind]
  simp only [each]
  exact Multiset.bind_bind _ _

/-- The keys that are asked for, in one source. -/
theorem perm_source {wanted : List κ} (different : wanted.Nodup) (items : List ι) (record : ι → ρ) :
    (wanted.filterMap fun one => (posting? key items one).map record).Perm
      (((firsts key items).filter fun item => key item ∈ wanted).map record) := by
  have known : ∀ one ∈ wanted.filter fun one => one ∉ items.map key, (posting? key items one).map record = none := by
    intro one member
    rw [Option.map_eq_none_iff, Option.eq_none_iff_forall_ne_some]
    intro item found
    exact of_decide_eq_true (List.mem_filter.mp member).2 (key_mem_of_posting? found)
  have keys : (wanted.filter fun one => one ∈ items.map key).Perm
      (((firsts key items).filter fun item => key item ∈ wanted).map key) := by
    refine (List.perm_ext_iff_of_nodup (different.filter _) ?_).mpr fun one => ?_
    · exact (nodup_firsts items).sublist (List.filter_sublist.map key)
    · rw [List.mem_filter, decide_eq_true_iff, ← mem_keys_firsts, List.mem_map, List.mem_map]
      constructor
      · rintro ⟨member, item, among, rfl⟩
        exact ⟨item, List.mem_filter.mpr ⟨among, decide_eq_true member⟩, rfl⟩
      · rintro ⟨item, among, rfl⟩
        obtain ⟨among, member⟩ := List.mem_filter.mp among
        exact ⟨of_decide_eq_true member, item, among, rfl⟩
  have found : (((firsts key items).filter fun item => key item ∈ wanted).map key).filterMap
      (fun one => (posting? key items one).map record) =
        ((firsts key items).filter fun item => key item ∈ wanted).map record := by
    rw [List.filterMap_map, ← List.filterMap_eq_map]
    refine List.filterMap_congr fun item member => ?_
    exact congrArg (Option.map record) (posting?_of_mem_firsts (List.mem_filter.mp member).1)
  have kept : wanted.filterMap (fun one => (posting? key items one).map record) =
      (wanted.filter fun one => one ∈ items.map key).filterMap fun one => (posting? key items one).map record := by
    rw [List.filterMap_filter]
    refine List.filterMap_congr fun one member => ?_
    by_cases occurs : one ∈ items.map key
    · rw [if_pos (decide_eq_true occurs)]
    · rw [if_neg (by rw [decide_eq_true_iff]; exact occurs)]
      exact known one (List.mem_filter.mpr ⟨member, decide_eq_true occurs⟩)
  rw [kept, ← found]
  exact keys.filterMap _

/-- **What is found**: of every source the items that are the first with their keys and have one that is asked for. -/
theorem perm_postings {wanted : List κ} (different : wanted.Nodup) (items : σ → List ι) (record : σ → ι → ρ)
    (sources : List σ) : (wanted.flatMap (postings key items record sources)).Perm
      (sources.flatMap fun source =>
        ((firsts key (items source)).filter fun item => key item ∈ wanted).map (record source)) := by
  refine (perm_flatMap_filterMap wanted sources fun one source =>
    (posting? key (items source) one).map (record source)).trans ?_
  exact List.Perm.flatMap_left sources fun source _ => perm_source different (items source) (record source)

end InvertedIndex
