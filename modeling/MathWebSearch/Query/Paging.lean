/-
**Paging** (`SearchContext::getResult`, its solution branch).

The page is put together leaf by leaf. What a leaf contributes is cut out of the concatenation of everything
the leaves hold, and the cut has to fit what the leaves before it have contributed.

* `Absorbed` — the invariant of the solution branch over the leaves handled so far.
* `getResult_page` — the answers are the requested slice, the total is the number of hits up to `maxTotal`,
  and pages that follow one another join.
-/

import MathWebSearch.Library.Pages
import MathWebSearch.Dbc.DbQueryManager
import MathWebSearch.Query.ExportedSearch

namespace MathWebSearch

open PrefixCode PatternWord Pages TmpIndexNode

namespace SearchContext

variable {D : Doubles} {context : SearchContext D} {index : TmpIndex} {query : DbQuery}
  {offset size maxTotal : Nat}

/-! ### The solution branch over the leaves -/

/-- What `getResult` has of the checked size. -/
theorem checkedSize_eq (fits : offset + size < 2 ^ 32) :
    checkedSize offset size maxTotal = min (offset + size) maxTotal - offset := by
  unfold checkedSize
  rw [Nat.mod_eq_of_lt fits]
  split_ifs <;> omega

theorem checkedSize_le (fits : offset + size < 2 ^ 32) :
    checkedSize offset size maxTotal ≤ size ∧
      (checkedSize offset size maxTotal = 0 ∨ offset + checkedSize offset size maxTotal ≤ maxTotal) := by
  rw [checkedSize_eq fits]
  omega

/-- What the solution branch has collected after the given leaves: they are counted up to `maxTotal`, and the
requested page is cut out of what they hold. -/
structure Absorbed (options : QueryOptions) (records : Nat → List Answer) (offset size maxTotal : Nat)
    (before : List TmpLeaf) (collected : Collected TmpIndexNode) : Prop where
  found_eq : collected.found = min (before.map (hits options)).sum maxTotal
  answers_eq : options.includeHits = true →
    collected.answers = ((before.flatMap fun leaf => records leaf.id).drop offset).take size
  ids_nodup : collected.ids.Nodup
  ids_iff : options.includeHits = false → options.includeMwsIds = true →
    ∀ id, id ∈ collected.ids ↔ id ∈ ((before.map TmpLeaf.id).drop offset).take size

/-- The page ends at `maxTotal` at the latest, and its sums stay below `2 ^ 32`. -/
structure Checked (offset size maxTotal : Nat) : Prop where
  fits : offset + size < 2 ^ 32
  bounded : size = 0 ∨ offset + size ≤ maxTotal
  small : maxTotal < 2 ^ 31

theorem checked_checkedSize (fits : offset + size < 2 ^ 32) (small : maxTotal < 2 ^ 31) :
    Checked offset (checkedSize offset size maxTotal) maxTotal := by
  obtain ⟨below, bounded⟩ := @checkedSize_le offset size maxTotal fits
  exact ⟨by omega, bounded, small⟩

/-- Beyond `maxTotal` nothing is requested. -/
theorem Checked.page_append {Item : Type} (checked : Checked offset size maxTotal) {before : List Item}
    (enough : maxTotal ≤ before.length) (items : List Item) :
    ((before ++ items).drop offset).take size = (before.drop offset).take size := by
  rcases checked.bounded with none | below
  · rw [none, List.take_zero, List.take_zero]
  · rw [drop_take_append, if_neg (by omega), List.append_nil]

/-- Counting below `2 ^ 32`. -/
theorem addHits_eq {found count : Nat} (fits : found + count < 2 ^ 32) :
    addHits maxTotal found count = min (found + count) maxTotal := by
  simp only [addHits, Nat.mod_eq_of_lt fits]
  split_ifs <;> omega

/-- What the database is asked for, below `2 ^ 32`. -/
theorem fetch_eq {records : Nat → List Answer} (slices : query.Slices records) (fits : offset + size < 2 ^ 32)
    (found id : Nat) :
    fetch query offset size found id = some (if offset < found then (records id).take (size + offset - found)
      else ((records id).drop (offset - found)).take size) := by
  unfold fetch
  split_ifs
  · rw [slices, List.drop_zero, Nat.mod_eq_of_lt (by omega)]
  · rw [slices]

theorem onPage_iff (fits : offset + size < 2 ^ 32) (found count : Nat) :
    onPage offset size found count = true ↔ found < size + offset ∧ offset < found + count := by
  unfold onPage
  rw [Nat.mod_eq_of_lt (by omega)]
  simp

section Step

variable {records : Nat → List Answer} {before : List TmpLeaf} {collected : Collected TmpIndexNode}

/-- With `includeHits`, the leaves hold as many records as hits are counted. -/
theorem length_records (held : ∀ leaf ∈ before, (records leaf.id).length = leaf.solutions)
    {options : QueryOptions} (includeHits : options.includeHits = true) :
    (before.flatMap fun leaf => records leaf.id).length = (before.map (hits options)).sum := by
  rw [List.length_flatMap]
  congr 1
  refine List.map_congr_left fun leaf among => ?_
  rw [held leaf among, hits, if_pos includeHits]

/-- Without `includeHits`, leaves are counted. -/
theorem sum_hits_of_ids (before : List TmpLeaf) {options : QueryOptions} (noHits : options.includeHits = false) :
    (before.map (hits options)).sum = before.length := by
  have ones : before.map (hits options) = before.map fun _ => 1 :=
    List.map_congr_left fun leaf _ => by simp [hits, noHits]
  rw [ones, List.map_const', List.sum_replicate, smul_eq_mul, mul_one]

/-- The solution branch where hits are listed. -/
theorem solution_hits (checked : Checked offset size maxTotal) (slices : query.Slices records)
    {leaf : TmpLeaf} (held : (records leaf.id).length = leaf.solutions)
    (includeHits : context.options.includeHits = true) :
    ∃ ids, (collected.ids.Nodup → ids.Nodup) ∧
      solution strictAccessor index query context offset size maxTotal collected (leafNode leaf) =
        some ⟨collected.reached ++ [leafNode leaf], addHits maxTotal collected.found leaf.solutions,
          collected.answers ++
            (if collected.found < size + offset ∧ offset < collected.found + (records leaf.id).length then
              (if offset < collected.found then (records leaf.id).take (size + offset - collected.found)
                else ((records leaf.id).drop (offset - collected.found)).take size)
            else []), ids⟩ := by
  have page := onPage_iff checked.fits collected.found leaf.solutions
  rw [held]
  cases listed : onPage offset size collected.found leaf.solutions with
  | true =>
    rw [if_pos (page.mp listed)]
    unfold solution
    cases context.options.includeMwsIds with
    | true =>
      refine ⟨collected.ids.insert leaf.id, List.Nodup.insert, ?_⟩
      simp [leafNode, includeHits, listed, fetch_eq slices checked.fits]
    | false =>
      refine ⟨collected.ids, id, ?_⟩
      simp [leafNode, includeHits, listed, fetch_eq slices checked.fits]
  | false =>
    rw [if_neg (fun inside => by rw [page.mpr inside] at listed; cases listed)]
    unfold solution
    refine ⟨collected.ids, id, ?_⟩
    simp [leafNode, includeHits, listed]

/-- The solution branch where only ids are listed. -/
theorem solution_ids {leaf : TmpLeaf} (noHits : context.options.includeHits = false)
    (includeMwsIds : context.options.includeMwsIds = true) :
    solution strictAccessor index query context offset size maxTotal collected (leafNode leaf) =
      some ⟨collected.reached ++ [leafNode leaf], addHits maxTotal collected.found 1, collected.answers,
        if onPage offset size collected.found 1 then collected.ids.insert leaf.id else collected.ids⟩ := by
  unfold solution
  cases listed : onPage offset size collected.found 1 <;> simp [leafNode, noHits, includeMwsIds, listed]

/-- The solution branch where nothing is listed. -/
theorem solution_silent {leaf : TmpLeaf} (noHits : context.options.includeHits = false)
    (noIds : context.options.includeMwsIds = false) :
    solution strictAccessor index query context offset size maxTotal collected (leafNode leaf) =
      some ⟨collected.reached ++ [leafNode leaf], addHits maxTotal collected.found 1, collected.answers,
        collected.ids⟩ := by
  unfold solution
  simp [noHits, noIds]

/-- **One leaf.** -/
theorem absorb_page (checked : Checked offset size maxTotal) (slices : query.Slices records) {leaf : TmpLeaf}
    (held : ∀ leaf' ∈ before ++ [leaf], (records leaf'.id).length = leaf'.solutions)
    (few : leaf.solutions < 2 ^ 30)
    (absorbed : Absorbed context.options records offset size maxTotal before collected) :
    ∃ collected', absorb context index query offset size maxTotal collected (leafNode leaf) = some collected' ∧
      Absorbed context.options records offset size maxTotal (before ++ [leaf]) collected' := by
  have heldBefore : ∀ leaf' ∈ before, (records leaf'.id).length = leaf'.solutions :=
    fun leaf' among => held leaf' (List.mem_append_left _ among)
  have counted : ((before ++ [leaf]).map (hits context.options)).sum =
      (before.map (hits context.options)).sum + hits context.options leaf := by simp
  have found_le : collected.found ≤ maxTotal := absorbed.found_eq ▸ min_le_right _ _
  unfold absorb
  split_ifs with unfinished
  · have small := checked.small
    have exact : collected.found = (before.map (hits context.options)).sum := by
      have := absorbed.found_eq
      omega
    cases includeHits : context.options.includeHits with
    | true =>
      have length := length_records heldBefore includeHits
      obtain ⟨ids, nodup, handled⟩ := @solution_hits D context index query offset size maxTotal records collected
        checked slices leaf (held leaf (by simp)) includeHits
      refine ⟨_, handled, ?_, ?_, nodup absorbed.ids_nodup, ?_⟩
      · rw [addHits_eq (by omega), counted, exact, hits, if_pos includeHits]
      · intro _
        simp only []
        rw [absorbed.answers_eq includeHits, List.flatMap_append, drop_take_append, length, exact,
          List.flatMap_singleton]
      · intro noHits
        rw [includeHits] at noHits
        cases noHits
    | false =>
      have length := sum_hits_of_ids before includeHits
      have found_eq : addHits maxTotal collected.found 1 =
          min ((before ++ [leaf]).map (hits context.options)).sum maxTotal := by
        rw [addHits_eq (by omega), counted, exact, hits, includeHits]
        rfl
      have noAnswers : ∀ answers : List Answer, false = true → answers =
          (((before ++ [leaf]).flatMap fun leaf => records leaf.id).drop offset).take size := nofun
      cases includeMwsIds : context.options.includeMwsIds with
      | true =>
        refine ⟨_, solution_ids includeHits includeMwsIds, found_eq, ?_, ?_, ?_⟩
        · rw [includeHits]
          exact noAnswers _
        · simp only []
          split_ifs
          · exact absorbed.ids_nodup.insert
          · exact absorbed.ids_nodup
        · intro _ _ id
          have earlier := absorbed.ids_iff includeHits includeMwsIds id
          rw [List.map_append, List.map_singleton, drop_take_concat, List.length_map, ← length, ← exact]
          by_cases listed : onPage offset size collected.found 1 = true
          · rw [if_pos listed, if_pos ((onPage_iff checked.fits _ _).mp listed), List.mem_insert_iff, earlier,
              List.mem_append, List.mem_singleton, or_comm]
          · rw [if_neg listed, if_neg fun inside => listed ((onPage_iff checked.fits _ _).mpr inside),
              List.append_nil, earlier]
      | false =>
        refine ⟨_, solution_silent includeHits includeMwsIds, found_eq, ?_, absorbed.ids_nodup, ?_⟩
        · rw [includeHits]
          exact noAnswers _
        · rw [includeMwsIds]
          exact fun _ wanted => by cases wanted
  · have full : maxTotal ≤ (before.map (hits context.options)).sum := by
      have := absorbed.found_eq
      omega
    refine ⟨collected, rfl, ?_, ?_, absorbed.ids_nodup, ?_⟩
    · rw [absorbed.found_eq, counted]
      omega
    · intro includeHits
      rw [absorbed.answers_eq includeHits, List.flatMap_append,
        checked.page_append (by rw [length_records heldBefore includeHits]; exact full)]
    · intro noHits includeMwsIds
      rw [sum_hits_of_ids before noHits] at full
      rw [List.map_append, checked.page_append (by rw [List.length_map]; exact full)]
      exact absorbed.ids_iff noHits includeMwsIds

/-- **All leaves**, from any point on. -/
theorem foldlM_absorb_page (checked : Checked offset size maxTotal) (slices : query.Slices records)
    (leaves : List TmpLeaf) : ∀ {before : List TmpLeaf} {collected : Collected TmpIndexNode},
      (∀ leaf ∈ before ++ leaves, (records leaf.id).length = leaf.solutions) →
      (∀ leaf ∈ leaves, leaf.solutions < 2 ^ 30) →
      Absorbed context.options records offset size maxTotal before collected →
      ∃ collected', (leaves.map leafNode).foldlM (absorb context index query offset size maxTotal) collected =
          some collected' ∧
        Absorbed context.options records offset size maxTotal (before ++ leaves) collected' := by
  induction leaves with
  | nil =>
    intro before collected _ _ absorbed
    exact ⟨collected, rfl, by rwa [List.append_nil]⟩
  | cons leaf rest ih =>
    intro before collected held few absorbed
    rw [List.append_cons] at held ⊢
    obtain ⟨next, handled, absorbedNext⟩ := @absorb_page D context index query offset size maxTotal records
      before collected checked slices leaf (fun leaf' among => held leaf' (List.mem_append_left _ among))
      (few leaf List.mem_cons_self) absorbed
    obtain ⟨collected', folded, absorbed'⟩ := ih held
      (fun leaf' among => few leaf' (List.mem_cons_of_mem _ among)) absorbedNext
    refine ⟨collected', ?_, absorbed'⟩
    rw [List.map_cons, List.foldlM_cons, handled]
    exact folded

end Step

/-! ### Pages -/

open Classical in
/-- The leaves whose formulas a query matches, in depth-first order. -/
noncomputable def matchingLeaves (context : SearchContext D) (index : TmpIndex) (pattern : EncodedFormula) :
    List TmpLeaf :=
  (index.leaves.filter fun entry => ∃ substitution,
    Instance EncodedToken.arity EncodedToken.role (accepts context) substitution pattern entry.1).map Prod.snd

/-- An answer set is the page of `size` positions from `offset` on, no further than `maxTotal`. -/
structure IsPage (options : QueryOptions) (records : Nat → List Answer) (leaves : List TmpLeaf)
    (offset size maxTotal : Nat) (result : MwsAnswset) : Prop where
  total_hits : options.includeHits = true →
    result.total = min ((leaves.map TmpLeaf.solutions).sum : Int) maxTotal
  answers_eq : options.includeHits = true →
    result.answers = positions (leaves.flatMap fun leaf => records leaf.id) offset (min (offset + size) maxTotal)
  total_leaves : options.includeHits = false → result.total = min (leaves.length : Int) maxTotal
  ids_nodup : result.ids.Nodup
  ids_iff : options.includeHits = false → options.includeMwsIds = true → ∀ id,
    id ∈ result.ids ↔ id ∈ positions (leaves.map TmpLeaf.id) offset (min (offset + size) maxTotal)

/-- What the solution branch has collected in the end is the page. -/
theorem Absorbed.isPage {options : QueryOptions} {records : Nat → List Answer} {leaves : List TmpLeaf}
    {collected : Collected TmpIndexNode} (fits : offset + size < 2 ^ 32) (small : maxTotal < 2 ^ 31)
    (absorbed : Absorbed options records offset (checkedSize offset size maxTotal) maxTotal leaves collected) :
    IsPage options records leaves offset size maxTotal
      ⟨collected.answers, Bytes.toInt32 collected.found, [], [], collected.ids⟩ := by
  have cut : ∀ {Item : Type} (items : List Item),
      (items.drop offset).take (checkedSize offset size maxTotal) =
        positions items offset (min (offset + size) maxTotal) := by
    intro Item items
    rw [positions, List.drop_take, checkedSize_eq fits]
  have below : collected.found < 2 ^ 31 := by
    have := absorbed.found_eq
    omega
  refine ⟨?_, ?_, ?_, absorbed.ids_nodup, ?_⟩
  · intro includeHits
    have same : leaves.map (hits options) = leaves.map TmpLeaf.solutions :=
      List.map_congr_left fun leaf _ => by rw [hits, if_pos includeHits]
    rw [Bytes.toInt32_of_lt below, absorbed.found_eq, same]
    exact Nat.cast_min (leaves.map TmpLeaf.solutions).sum maxTotal
  · intro includeHits
    rw [← cut]
    exact absorbed.answers_eq includeHits
  · intro noHits
    rw [Bytes.toInt32_of_lt below, absorbed.found_eq, sum_hits_of_ids leaves noHits]
    exact Nat.cast_min leaves.length maxTotal
  · intro noHits includeMwsIds id
    rw [← cut]
    exact absorbed.ids_iff noHits includeMwsIds id

section Pages

variable {pattern : EncodedFormula} {options : QueryOptions} {rangeBounds : List (Nat × D.Carrier × D.Carrier)}
  {meaningDict : Option MeaningDictionary} {records : Nat → List Answer}

/-- One page, of a trie that is well formed. -/
theorem getResult_isPage_shaped (shape : TmpIndexNode.WellFormed 1 index.root)
    (answerable : Answerable rangeBounds meaningDict index pattern) (slices : query.Slices records)
    (held : ∀ leaf ∈ matchingLeaves (new pattern options rangeBounds meaningDict) index pattern,
      leaf.solutions < 2 ^ 30 ∧ (records leaf.id).length = leaf.solutions)
    (small : maxTotal < 2 ^ 31) (fits : offset + size < 2 ^ 32) :
    ∃ enough result, IsPage options records
        (matchingLeaves (new pattern options rangeBounds meaningDict) index pattern) offset size maxTotal result ∧
      ∀ fuel, enough ≤ fuel →
        (new pattern options rangeBounds meaningDict).getResult tmpIndexAccessor index query fuel offset size
          maxTotal = some result ∧
        ∀ handle : IndexHandle, Represents Fits handle.image index.root handle.root →
          (new pattern options rangeBounds meaningDict).getResult indexAccessor handle query fuel offset size
            maxTotal = some result := by
  have start : Absorbed options records offset (checkedSize offset size maxTotal) maxTotal [] nothing :=
    ⟨by simp [nothing], fun _ => by simp [nothing], List.nodup_nil, fun _ _ id => by simp [nothing]⟩
  obtain ⟨collected, folded, absorbed⟩ := @foldlM_absorb_page D (new pattern options rangeBounds meaningDict)
    index query offset (checkedSize offset size maxTotal) maxTotal records (checked_checkedSize fits small) slices
    (matchingLeaves (new pattern options rangeBounds meaningDict) index pattern) [] nothing
    (fun leaf among => (held leaf among).2) (fun leaf among => (held leaf among).1) start
  have nodes : (matchingLeaves (new pattern options rangeBounds meaningDict) index pattern).map leafNode =
      leafNodes (matching (accepts (new pattern options rangeBounds meaningDict)) (fun _ => none) pattern
        index.root) := by
    classical
    rw [matching_eq_filter, matchingLeaves, leafNodes, List.map_map]
    rfl
  rw [nodes] at folded
  obtain ⟨enough, computed⟩ := getResult_folded shape answerable folded
  exact ⟨enough, _, absorbed.isPage fits small, computed⟩

/-- One page. -/
theorem getResult_isPage (built : index.Built) (nonempty : ¬ index.IsEmpty)
    (answerable : Answerable rangeBounds meaningDict index pattern) (slices : query.Slices records)
    (held : ∀ leaf ∈ matchingLeaves (new pattern options rangeBounds meaningDict) index pattern,
      leaf.solutions < 2 ^ 30 ∧ (records leaf.id).length = leaf.solutions)
    (small : maxTotal < 2 ^ 31) (fits : offset + size < 2 ^ 32) :
    ∃ enough result, IsPage options records
        (matchingLeaves (new pattern options rangeBounds meaningDict) index pattern) offset size maxTotal result ∧
      ∀ fuel, enough ≤ fuel →
        (new pattern options rangeBounds meaningDict).getResult tmpIndexAccessor index query fuel offset size
          maxTotal = some result ∧
        ∀ handle : IndexHandle, Represents Fits handle.image index.root handle.root →
          (new pattern options rangeBounds meaningDict).getResult indexAccessor handle query fuel offset size
            maxTotal = some result :=
  getResult_isPage_shaped (built.wellFormed nonempty) answerable slices held small fits

/-- **Paging.** On every non-empty index and for every query that can be answered, with a database that holds
as many records for a leaf as it has hits: `getResult` gives the requested page, over the index in memory and
over its export, and two pages that follow one another join to the page of both. -/
theorem getResult_page (built : index.Built) (nonempty : ¬ index.IsEmpty)
    (answerable : Answerable rangeBounds meaningDict index pattern) (slices : query.Slices records)
    (held : ∀ leaf ∈ matchingLeaves (new pattern options rangeBounds meaningDict) index pattern,
      leaf.solutions < 2 ^ 30 ∧ (records leaf.id).length = leaf.solutions)
    (small : maxTotal < 2 ^ 31) :
    (∀ offset size, offset + size < 2 ^ 32 → ∃ enough result, IsPage options records
        (matchingLeaves (new pattern options rangeBounds meaningDict) index pattern) offset size maxTotal result ∧
      ∀ fuel, enough ≤ fuel →
        (new pattern options rangeBounds meaningDict).getResult tmpIndexAccessor index query fuel offset size
          maxTotal = some result ∧
        ∀ handle : IndexHandle, Represents Fits handle.image index.root handle.root →
          (new pattern options rangeBounds meaningDict).getResult indexAccessor handle query fuel offset size
            maxTotal = some result) ∧
    ∀ offset size size', offset + (size + size') < 2 ^ 32 → ∃ enough page page' joined, ∀ fuel, enough ≤ fuel →
      (new pattern options rangeBounds meaningDict).getResult tmpIndexAccessor index query fuel offset size
        maxTotal = some page ∧
      (new pattern options rangeBounds meaningDict).getResult tmpIndexAccessor index query fuel (offset + size)
        size' maxTotal = some page' ∧
      (new pattern options rangeBounds meaningDict).getResult tmpIndexAccessor index query fuel offset
        (size + size') maxTotal = some joined ∧
      (options.includeHits = true → page.answers ++ page'.answers = joined.answers) ∧
      (options.includeHits = false → options.includeMwsIds = true →
        ∀ id, id ∈ joined.ids ↔ id ∈ page.ids ∨ id ∈ page'.ids) := by
  refine ⟨fun offset size fits => getResult_isPage built nonempty answerable slices held small fits, ?_⟩
  intro offset size size' fits
  obtain ⟨enough₁, page, isPage, computed⟩ := getResult_isPage built nonempty answerable slices held small
    (show offset + size < 2 ^ 32 by omega)
  obtain ⟨enough₂, page', isPage', computed'⟩ := getResult_isPage built nonempty answerable slices held small
    (show (offset + size) + size' < 2 ^ 32 by omega)
  obtain ⟨enough₃, joined, isJoined, computedJoined⟩ := getResult_isPage built nonempty answerable slices held
    small fits
  refine ⟨enough₁ + enough₂ + enough₃, page, page', joined, fun fuel more =>
    ⟨(computed fuel (by omega)).1, (computed' fuel (by omega)).1, (computedJoined fuel (by omega)).1, ?_, ?_⟩⟩
  · intro includeHits
    rw [isPage.answers_eq includeHits, isPage'.answers_eq includeHits, isJoined.answers_eq includeHits]
    exact positions_join _ offset size size' maxTotal
  · intro noHits includeMwsIds id
    rw [isPage.ids_iff noHits includeMwsIds, isPage'.ids_iff noHits includeMwsIds,
      isJoined.ids_iff noHits includeMwsIds, ← positions_join, List.mem_append]

/-- A formula `f(a, b, c)` matches `f(v, v, r)` when `a` and `b` are the same and `c` is in the range. -/
theorem instance_sampleQuery (substitution : Nat → EncodedFormula) {first second third : EncodedToken}
    (flat : first.arity = 0) (flat' : second.arity = 0) :
    Instance EncodedToken.arity EncodedToken.role (accepts sampleContext) substitution sampleQuery
        [encodedToken 162 3, first, second, third] ↔
      substitution 2 = [first] ∧ substitution 2 = [second] ∧ third.arity = 0 ∧ accepts sampleContext 129 third = true := by
  have closes : ∀ {token : EncodedToken}, token.arity = 0 → Closes EncodedToken.arity 1 [token] := fun flat => by
    rw [closes_cons, flat]
    exact closes_zero.mpr rfl
  have constant : EncodedToken.role (encodedToken 162 3) = .constant := rfl
  have named : EncodedToken.role (encodedToken 2 1) = .named 2 := rfl
  have range : EncodedToken.role (encodedToken 129 1) = .restricted 129 := rfl
  rw [sampleQuery, instance_constant constant]
  show _ ∧ Instance _ _ _ substitution _ ([first] ++ ([second] ++ [third])) ↔ _
  rw [instance_named named (closes flat), instance_named named (closes flat'), instance_restricted range, instance_nil]
  tauto

/-- `f(x, x, 3)` matches, and `f(x, 3, 3)` does not. -/
theorem matchingLeaves_sample : matchingLeaves sampleContext sampleIndex sampleQuery = [⟨1, 1⟩] := by
  have leaves : sampleIndex.leaves =
      [([encodedToken 162 3, encodedToken 163 0, encodedToken 163 0, encodedToken 164 0], ⟨1, 1⟩),
        ([encodedToken 162 3, encodedToken 163 0, encodedToken 164 0, encodedToken 164 0], ⟨2, 0⟩)] := by decide
  have flat : ∀ id, (encodedToken id 0).arity = 0 := fun _ => rfl
  have same : ∃ substitution, Instance EncodedToken.arity EncodedToken.role (accepts sampleContext) substitution
      sampleQuery [encodedToken 162 3, encodedToken 163 0, encodedToken 163 0, encodedToken 164 0] :=
    ⟨fun _ => [encodedToken 163 0],
      (instance_sampleQuery _ (flat 163) (flat 163)).mpr ⟨rfl, rfl, rfl, by with_unfolding_all rfl⟩⟩
  have different : ¬ ∃ substitution, Instance EncodedToken.arity EncodedToken.role (accepts sampleContext) substitution
      sampleQuery [encodedToken 162 3, encodedToken 163 0, encodedToken 164 0, encodedToken 164 0] := by
    rintro ⟨substitution, inst⟩
    obtain ⟨one, other, -⟩ := (instance_sampleQuery _ (flat 163) (flat 164)).mp inst
    exact absurd (one.symm.trans other) (by decide)
  rw [matchingLeaves, leaves, List.filter_cons_of_pos (by simpa using same),
    List.filter_cons_of_neg (by simpa using different)]
  rfl
/-- The occurrence of `f(x, x, 3)`. -/
def sampleFormulaDb : MemFormulaDb :=
  (MemFormulaDb.empty.insertFormula 1 crawlIdNull ⟨['d', 'o', 'c'], ['/', '*']⟩).1

/-- The first page of the search for `f(v, v, r)`: the one occurrence. -/
theorem getResult_page_sample : ∃ enough result, result.total = 1 ∧
    result.answers = [⟨crawlDataNull, ['d', 'o', 'c'], ['/', '*']⟩] ∧
    ∀ fuel, enough ≤ fuel → sampleContext.getResult tmpIndexAccessor sampleIndex
      (DbQueryManager.ofMemory MemCrawlDb.empty sampleFormulaDb).answers fuel 0 5 10 = some result := by
  have known : DbQueryManager.CrawlsKnown MemCrawlDb.empty sampleFormulaDb :=
    (DbQueryManager.CrawlsKnown.empty _).insertFormula 1 (fun notNull => absurd rfl notNull) _
  have answerable : @Answerable Doubles.whole [(129, ((1 : Nat), (5 : Nat)))] (some sampleDictionary) sampleIndex
      sampleQuery := ⟨by decide, by decide, fun _ => sampleIndex_decodes⟩
  have matching : matchingLeaves (new sampleQuery {} [(129, ((1 : Nat), (5 : Nat)))] (some sampleDictionary) :
      SearchContext Doubles.whole) sampleIndex sampleQuery = [⟨1, 1⟩] := matchingLeaves_sample
  obtain ⟨enough, result, isPage, computed⟩ := (@getResult_page Doubles.whole sampleIndex _ 10 sampleQuery {}
    [(129, ((1 : Nat), (5 : Nat)))] (some sampleDictionary) _ sampleIndex_built.1 sampleIndex_built.2 answerable
    (DbQueryManager.answers_memory known)
    (fun leaf among => by
      rw [matching] at among
      obtain rfl := List.mem_singleton.mp among
      exact ⟨by decide, rfl⟩)
    (by decide)).1 0 5 (by decide)
  rw [matching] at isPage
  exact ⟨enough, result, isPage.total_hits rfl, isPage.answers_eq rfl, fun fuel more => (computed fuel more).1⟩

end Pages

end SearchContext

end MathWebSearch
