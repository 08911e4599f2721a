/-
**The exported index refines the index in memory** (`exportToMemsector`, `memsector_load`,
`IndexAccessor`, `SearchContext::getResult`).

* `getResult_exported` — where the image represents the root, `getResult` gives the same answer set over
  both accessors.
* `exportToMemsector_refines` — the export goes through; below `2 ^ 34` bytes all assertions hold, the file
  loads, the two accessors are bisimilar, and `getResult` cannot tell them apart.
-/

import MathWebSearch.Index.IndexAccessor
import MathWebSearch.Query.SearchExact

namespace MathWebSearch

open PrefixCode PatternWord TmpIndexNode

namespace SearchContext

variable {D : Doubles}

/-- Absorbing leaves goes through when the database does. -/
theorem isSome_foldlM_absorb (context : SearchContext D) (index : TmpIndex) {query : DbQuery}
    (answers : ∀ id offset size, (query id offset size).isSome) (offset size maxTotal : Nat)
    (entries : List (EncodedFormula × TmpLeaf)) (collected : Collected TmpIndexNode) :
    ((leafNodes entries).foldlM (absorb context index query offset size maxTotal) collected).isSome := by
  refine Fuel.isSome_foldlM _ (fun collected node member => ?_) collected
  obtain ⟨entry, -, rfl⟩ := List.mem_map.mp member
  unfold absorb
  split
  · have fetched : (fetch query offset size collected.found entry.2.id).isSome := by
      unfold fetch
      split <;> exact answers _ _ _
    obtain ⟨found, stored⟩ := Option.isSome_iff_exists.mp fetched
    obtain ⟨ids, handled⟩ := @solution_leaf D context index query offset size maxTotal collected entry.2
      found fun _ => stored
    rw [handled]
    rfl
  · rfl

/-- What `getResult` needs of a query: it is complete, its ranges have bounds, and the decoder knows the
tokens of the index that a range may be asked about. -/
structure Answerable (rangeBounds : List (Nat × D.Carrier × D.Carrier)) (meaningDict : Option MeaningDictionary)
    (index : TmpIndex) (pattern : EncodedFormula) : Prop where
  complete : pattern.IsQueryCode
  bounds : ∀ token ∈ pattern, token.isRange = true → (rangeBounds.lookup token.id).isSome
  decodes : (∃ token ∈ pattern, token.isRange = true) → Decodes meaningDict index

section Folded

variable {index : TmpIndex} {pattern : EncodedFormula} {options : QueryOptions}
  {rangeBounds : List (Nat × D.Carrier × D.Carrier)} {meaningDict : Option MeaningDictionary} {query : DbQuery}
  {offset size maxTotal : Nat} {collected : Collected TmpIndexNode}

/-- What is folded over the matching leaves is the answer set of `getResult` over the accessor that has to answer. -/
theorem getResult_strict (shape : WellFormed 1 index.root) (answerable : Answerable rangeBounds meaningDict index pattern)
    (folded : (leafNodes (matching (accepts (new pattern options rangeBounds meaningDict)) (fun _ => none)
        pattern index.root)).foldlM
      (absorb (new pattern options rangeBounds meaningDict) index query offset
        (checkedSize offset size maxTotal) maxTotal) nothing = some collected) :
    ∃ enough, ∀ fuel, enough ≤ fuel →
      (new pattern options rangeBounds meaningDict).getResult strictAccessor index query fuel offset size
        maxTotal = some ⟨collected.answers, Bytes.toInt32 collected.found, [], [], collected.ids⟩ := by
  obtain ⟨enough, searched⟩ := search_shaped shape answerable.complete answerable.bounds
    answerable.decodes folded
  refine ⟨enough, fun fuel more => ?_⟩
  rw [getResult, searched fuel more]
  rfl

/-- So it is in memory and over every image that represents the root. -/
theorem getResult_folded (shape : WellFormed 1 index.root) (answerable : Answerable rangeBounds meaningDict index pattern)
    (folded : (leafNodes (matching (accepts (new pattern options rangeBounds meaningDict)) (fun _ => none)
        pattern index.root)).foldlM
      (absorb (new pattern options rangeBounds meaningDict) index query offset
        (checkedSize offset size maxTotal) maxTotal) nothing = some collected) :
    ∃ enough, ∀ fuel, enough ≤ fuel →
      (new pattern options rangeBounds meaningDict).getResult tmpIndexAccessor index query fuel offset size
        maxTotal = some ⟨collected.answers, Bytes.toInt32 collected.found, [], [], collected.ids⟩ ∧
      ∀ handle : IndexHandle, Represents Fits handle.image index.root handle.root →
        (new pattern options rangeBounds meaningDict).getResult indexAccessor handle query fuel offset size
          maxTotal = some ⟨collected.answers, Bytes.toInt32 collected.found, [], [], collected.ids⟩ := by
  obtain ⟨enough, strict⟩ := getResult_strict shape answerable folded
  refine ⟨enough, fun fuel more => ⟨?_, fun handle root => ?_⟩⟩
  · obtain ⟨result, inMemory, rfl⟩ := getResult_follows (simulates_strictAccessor index)
      (new pattern options rangeBounds meaningDict) query offset size maxTotal fuel _ (strict fuel more)
    exact inMemory
  · obtain ⟨result, onImage, rfl⟩ := getResult_follows (simulates_indexAccessor root)
      (new pattern options rangeBounds meaningDict) query offset size maxTotal fuel _ (strict fuel more)
    exact onImage

end Folded

/-- **The same answer set over both accessors.** -/
theorem getResult_exported {index : TmpIndex} (shape : WellFormed 1 index.root)
    {handle : IndexHandle} (root : Represents Fits handle.image index.root handle.root) {pattern : EncodedFormula}
    (options : QueryOptions) {rangeBounds : List (Nat × D.Carrier × D.Carrier)}
    {meaningDict : Option MeaningDictionary} (answerable : Answerable rangeBounds meaningDict index pattern)
    {query : DbQuery} (answers : ∀ id offset size, (query id offset size).isSome)
    (offset size maxTotal : Nat) :
    ∃ enough result, ∀ fuel, enough ≤ fuel →
      (new pattern options rangeBounds meaningDict).getResult tmpIndexAccessor index query fuel offset size
        maxTotal = some result ∧
      (new pattern options rangeBounds meaningDict).getResult indexAccessor handle query fuel offset size
        maxTotal = some result := by
  obtain ⟨collected, folded⟩ := Option.isSome_iff_exists.mp
    (isSome_foldlM_absorb (new pattern options rangeBounds meaningDict) index answers offset
      (checkedSize offset size maxTotal) maxTotal (matching (accepts (new pattern options rangeBounds meaningDict))
        (fun _ => none) pattern index.root) nothing)
  obtain ⟨enough, computed⟩ := getResult_folded shape answerable folded
  exact ⟨enough, _, fun fuel more => ⟨(computed fuel more).1, (computed fuel more).2 handle root⟩⟩

/-- **The exported memsector refines the index in memory.** -/
theorem exportToMemsector_refines {index : TmpIndex} (built : index.Built) (nonempty : ¬ index.IsEmpty)
    {longOffStart : Nat} (threshold : longOffStart ≤ 2 ^ 32)
    (hits : ∀ entry ∈ index.leaves, entry.2.solutions < 2 ^ 30) :
    ∃ enough mswr file, (∀ fuel, enough ≤ fuel →
        index.exportToMemsector longOffStart fuel Memsector.create = some (mswr, file)) ∧
      (file.length < 2 ^ 34 → mswr.held = true ∧ ∃ header, Memsector.load file = some header ∧
        Bisimilar index ⟨file, Memsector.getRoot header⟩ ∧
        ∀ (D : Doubles) (pattern : EncodedFormula) (options : QueryOptions)
          (rangeBounds : List (Nat × D.Carrier × D.Carrier)) (meaningDict : Option MeaningDictionary)
          (query : DbQuery) (offset size maxTotal : Nat), Answerable rangeBounds meaningDict index pattern →
          (∀ id offset size, (query id offset size).isSome) →
          ∃ enough result, ∀ fuel, enough ≤ fuel →
            (new pattern options rangeBounds meaningDict).getResult tmpIndexAccessor index query fuel offset
              size maxTotal = some result ∧
            (new pattern options rangeBounds meaningDict).getResult indexAccessor
              ⟨file, Memsector.getRoot header⟩ query fuel offset size maxTotal = some result) := by
  have shape := built.wellFormed nonempty
  have fits : ∀ entry ∈ index.leaves, Fits entry.2 := fun entry member =>
    ⟨hits entry member, built.id_lt entry member⟩
  obtain ⟨enough, mswr, file, computed, low, loaded⟩ := TmpIndex.exported_spec threshold shape fits
  refine ⟨enough, mswr, file, computed, fun small => ?_⟩
  obtain ⟨_, held, header, load, rep⟩ := loaded (low small)
  have root : Represents Fits (⟨file, Memsector.getRoot header⟩ : IndexHandle).image index.root
      (⟨file, Memsector.getRoot header⟩ : IndexHandle).root := ⟨⟨1, shape⟩, rep⟩
  refine ⟨held, header, load, bisimilar_of_represents root, ?_⟩
  intro D pattern options rangeBounds meaningDict query offset size maxTotal answerable answers
  exact getResult_exported shape root options answerable answers offset size maxTotal

/-- The index of `f(x, x, 3)` and `f(x, 3, 3)`, exported with long nodes from six units on. -/
theorem exportToMemsector_refines_sample : ∃ enough mswr file header,
    (∀ fuel, enough ≤ fuel → sampleIndex.exportToMemsector 6 fuel Memsector.create = some (mswr, file)) ∧
      file.length < 2 ^ 34 ∧ mswr.held = true ∧ Memsector.load file = some header ∧
      Bisimilar sampleIndex ⟨file, Memsector.getRoot header⟩ := by
  obtain ⟨enough, mswr, file, computed, refines⟩ := exportToMemsector_refines sampleIndex_built.1
    sampleIndex_built.2 (show 6 ≤ 2 ^ 32 by decide) (by decide)
  have length : (sampleIndex.exportToMemsector 6 20 Memsector.create).map (fun result => result.2.length) =
      some 144 := by decide +kernel
  obtain ⟨result, exported, size⟩ := Option.map_eq_some_iff.mp length
  have later := (TmpIndex.exportToMemsector_mono 6 sampleIndex).le (le_max_left 20 enough) exported
  rw [computed _ (le_max_right 20 enough)] at later
  obtain rfl := Option.some.inj later
  have small : file.length < 2 ^ 34 := lt_of_eq_of_lt size (by decide)
  obtain ⟨held, header, loaded, bisimilar, _⟩ := refines small
  exact ⟨enough, mswr, file, header, computed, small, held, loaded, bisimilar⟩

end SearchContext

end MathWebSearch
