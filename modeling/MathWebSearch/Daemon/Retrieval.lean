/-
**What is found in a harvest** (`IndexBuilder::indexContentMath`, `HarvestQueryHandler::handleQuery`).

Expressions are indexed one after the other, and a query is answered from the index and the databases in memory. From
the outside, neither words nor tries are to be seen: a query finds, in every expression, the subtrees that are the query
with its variables and ranges filled, each kind of subtree once and where it occurs first. Nodes of the trie have fewer
than `2 ^ 31` children, as a `VectorMap` can have.

* `foundIn`, `expectedAnswers` — what has to be found, from the trees alone.
* `perm_expected` — the records of the leaves that match are the expected answers, in some order.
* `handleQuery_retrieves` — **every request returns the requested page of the expected answers.**
* `handleQuery_locates` — all variables with names are reported, and **the reported paths** lead to what was found and
  to what stands for the variables.
-/

import MathWebSearch.Library.InvertedIndex
import MathWebSearch.Query.AnswerPositions
import MathWebSearch.Daemon.ServingSafety

namespace MathWebSearch

open CmmlToken IdDictionary PrefixCode PatternWord ExpressionEncoder SearchContext IndexBuilder QueryTrees InvertedIndex
open TmpIndexNode Pages

namespace Retrieval

/-! ### What has to be found -/

section Expected

open Classical

variable (D : Doubles)

/-- **What a query finds in an expression**: among the subtrees that can be encoded those that answer it, each where it
occurs first. -/
noncomputable def foundIn (query tree : CmmlToken) : List Located :=
  (firsts (fun located => symbols located.token) (acceptedNodes tree)).filter fun located =>
    decide (AnswersQuery D query located.token)

/-- The answer for a node of an expression that has been indexed. -/
def answerAt (crawlDb : MemCrawlDb) (input : CmmlToken × Str × CrawlId) (located : Located) : Answer :=
  DbQueryManager.answerOf crawlDb ⟨input.2.2, input.2.1, located.getXpath⟩

/-- **What a query finds in a harvest.** -/
noncomputable def expectedAnswers (crawlDb : MemCrawlDb) (inputs : List (CmmlToken × Str × CrawlId)) (query : CmmlToken) :
    List Answer :=
  inputs.flatMap fun input => (foundIn D query input.1).map (answerAt crawlDb input)

end Expected

/-! ### A harvest that has been indexed -/

section Indexed

variable {C : Type} {putData : C → Str → Option (C × CrawlId)}

/-- The dictionary behind expressions. -/
theorem meaningDictionary_indexAll {F : Type} (databases : Databases F C) (inputs : List (CmmlToken × Str × CrawlId)) :
    ∀ {self self' : IndexBuilder F C} {numbers : List Int}, indexAll databases inputs self = some (self', numbers) →
      self'.meaningDictionary = dictionaryAfterAll self.indexingOptions self.meaningDictionary inputs ∧
        self'.indexingOptions = self.indexingOptions := by
  induction inputs with
  | nil =>
    intro self self' numbers indexed
    obtain ⟨rfl, -⟩ := Prod.mk.inj (Option.some.inj indexed)
    exact ⟨rfl, rfl⟩
  | cons input rest ih =>
    intro self self' numbers indexed
    obtain ⟨⟨next, number⟩, first, later⟩ := Option.bind_eq_some_iff.mp indexed
    obtain ⟨⟨last, others⟩, behind, same⟩ := Option.bind_eq_some_iff.mp later
    obtain ⟨rfl, -⟩ := Prod.mk.inj (Option.some.inj same)
    obtain ⟨dictionary, options⟩ := ih behind
    rw [indexContentMath_eq] at first
    obtain ⟨state, inserted, made⟩ := Option.map_eq_some_iff.mp first
    obtain ⟨rfl, -⟩ := Prod.mk.inj made
    have kept : state.builder.indexingOptions = self.indexingOptions := (insertEncodings_kept _ _ inserted).1
    refine ⟨?_, options.trans kept⟩
    rw [dictionary]
    show dictionaryAfterAll state.builder.indexingOptions _ rest = _
    rw [kept]
    rfl

/-- **Expressions as a harvest may have them**: there is one, all nodes are constants, there are few enough meanings,
formulas and expressions, and what is said about their origins is known. -/
structure Harvested (crawlDb : MemCrawlDb) (inputs : List (CmmlToken × Str × CrawlId)) : Prop where
  nonempty : inputs ≠ []
  constants : ∀ input ∈ inputs, Constants input.1
  meanings : (dictionaryAfterAll ⟨false⟩ .empty inputs).map.length < 2 ^ 24 - 161
  formulas : ((callsOf ⟨false⟩ .empty inputs).flatMap Call.formulas).toFinset.card < 2 ^ 32
  few : inputs.length < 2 ^ 30
  crawled : ∀ input ∈ inputs, input.2.2 ≠ crawlIdNull → (crawlDb.getData input.2.2).isSome

/-- **What the index and the database hold** for expressions, over the names of a dictionary. -/
structure Holds (keys : List Str) (inputs : List (CmmlToken × Str × CrawlId)) (index : TmpIndex) (formulaDb : MemFormulaDb) :
    Prop where
  shape : WellFormed 1 index.root
  nodup : (index.leaves.map Prod.fst).Nodup
  known : ∀ input ∈ inputs, ∀ located ∈ acceptedNodes input.1, KnownTo keys located.token
  stored : ∀ formula, formula ∈ index.leaves.map Prod.fst ↔
    ∃ input ∈ inputs, ∃ located ∈ acceptedNodes input.1, formulaOf keys located.token = formula
  counted : ∀ entry ∈ index.leaves, entry.2.solutions < 2 ^ 30 ∧
    (formulaDb.mData entry.2.id).length = entry.2.solutions
  records : ∀ entry ∈ index.leaves, formulaDb.mData entry.2.id =
    postings (fun located => formulaOf keys located.token) (fun input => acceptedNodes input.1)
      (fun input located => (⟨input.2.2, input.2.1, located.getXpath⟩ : FormulaInfo)) inputs entry.1
  origins : ∀ id, ∀ info ∈ formulaDb.mData id, ∃ input ∈ inputs, ∃ located ∈ acceptedNodes input.1,
    info = ⟨input.2.2, input.2.1, located.getXpath⟩

/-- The record of a formula in a call. -/
theorem record?_callIn (keys : List Str) (input : CmmlToken × Str × CrawlId) (formula : EncodedFormula) :
    (callIn keys input).record? formula =
      (posting? (fun located => formulaOf keys located.token) (acceptedNodes input.1) formula).map
        fun located => ⟨input.2.2, input.2.1, located.getXpath⟩ := by
  rw [Call.record?, callIn, List.find?_map, Option.map_map]
  rfl

/-- **Indexing a harvest.** -/
theorem indexAll_holds {crawlDb : MemCrawlDb} {inputs : List (CmmlToken × Str × CrawlId)}
    (harvested : Harvested crawlDb inputs) (putData : C → Str → Option (C × CrawlId)) (crawls : Option C) (nextId : Nat) :
    ∃ builder numbers keys, indexAll ⟨MemFormulaDb.insertFormula, putData⟩ inputs (fresh crawls .empty ⟨false⟩ nextId) =
        some (builder, numbers) ∧
      builder.indexingOptions = ⟨false⟩ ∧ builder.meaningDictionary.Numbered keys ∧ Roomy keys ∧
      Holds keys inputs builder.index builder.formulaDb := by
  obtain ⟨nonempty, constants, meanings, formulas, few, -⟩ := harvested
  have short : inputs.length < 2 ^ 32 := lt_trans few (by decide)
  obtain ⟨keys, numbered, roomy, known, calls⟩ := callsOf_empty constants meanings
  obtain ⟨builder, indexed, tracks, -, -⟩ := @indexAll_tracks C putData inputs [] (fresh crawls .empty ⟨false⟩ nextId)
    (tracks_empty nextId) (isPrefixCode_of_mem_callsOf inputs fun input member => (constants input member).wellShaped)
    formulas.le
  obtain ⟨dictionary, options⟩ := meaningDictionary_indexAll _ inputs indexed
  have tracks : Tracks (callsOf ⟨false⟩ .empty inputs) builder.index builder.formulaDb := by
    rw [List.nil_append] at tracks
    exact tracks
  have dictionary : builder.meaningDictionary = dictionaryAfterAll ⟨false⟩ .empty inputs := dictionary
  rw [calls] at tracks
  have stored : ∀ formula, formula ∈ builder.index.leaves.map Prod.fst ↔
      ∃ input ∈ inputs, ∃ located ∈ acceptedNodes input.1, formulaOf keys located.token = formula := by
    intro formula
    have inCalls : formula ∈ (inputs.map (callIn keys)).flatMap Call.formulas ↔
        ∃ input ∈ inputs, ∃ located ∈ acceptedNodes input.1, formulaOf keys located.token = formula := by
      rw [List.flatMap_map, List.mem_flatMap]
      refine exists_congr fun input => and_congr_right fun _ => ?_
      rw [Call.formulas, callIn, List.map_map, List.mem_map]
      rfl
    rw [← inCalls, ← tracks.grown.leafAt_isSome, List.mem_map]
    constructor
    · rintro ⟨entry, member, rfl⟩
      rw [tracks.grown.shaped.mem_leaves.mp member]
      rfl
    · intro found
      obtain ⟨leaf, leafAt⟩ := Option.isSome_iff_exists.mp found
      exact ⟨(formula, leaf), tracks.grown.shaped.mem_leaves.mpr leafAt, rfl⟩
  have shape : WellFormed 1 builder.index.root := by
    refine tracks.grown.shaped.resolve_left fun new => ?_
    obtain ⟨input, member⟩ := List.exists_mem_of_ne_nil _ nonempty
    obtain ⟨located, accepted⟩ := List.exists_mem_of_ne_nil _ (acceptedNodes_ne_nil input.1)
    have found := (stored _).mpr ⟨input, member, located, accepted, rfl⟩
    rw [TmpIndex.leaves, new] at found
    exact List.not_mem_nil found
  have records : ∀ entry ∈ builder.index.leaves, builder.formulaDb.mData entry.2.id =
      postings (fun located => formulaOf keys located.token) (fun input => acceptedNodes input.1)
        (fun input located => (⟨input.2.2, input.2.1, located.getXpath⟩ : FormulaInfo)) inputs entry.1 := by
    intro entry member
    rw [tracks.records _ _ (tracks.grown.shaped.mem_leaves.mp member), recordsOf, List.filterMap_map, postings]
    exact List.filterMap_congr fun input _ => record?_callIn keys input entry.1
  have origins : ∀ id, ∀ info ∈ builder.formulaDb.mData id, ∃ input ∈ inputs, ∃ located ∈ acceptedNodes input.1,
      info = ⟨input.2.2, input.2.1, located.getXpath⟩ := by
    intro id info member
    by_cases used : ∃ formula leaf, builder.index.leafAt formula = some leaf ∧ leaf.id = id
    · obtain ⟨formula, leaf, leafAt, rfl⟩ := used
      rw [records (formula, leaf) (tracks.grown.shaped.mem_leaves.mpr leafAt), postings, List.mem_filterMap] at member
      obtain ⟨input, among, recorded⟩ := member
      obtain ⟨located, found, rfl⟩ := Option.map_eq_some_iff.mp recorded
      exact ⟨input, among, located, List.mem_of_find?_eq_some found, rfl⟩
    · rw [tracks.unused id fun formula leaf leafAt same => used ⟨formula, leaf, leafAt, same⟩] at member
      exact absurd member List.not_mem_nil
  refine ⟨builder, _, keys, indexed, options, dictionary ▸ numbered, roomy,
    ⟨shape, tracks.grown.shaped.leaves_nodup, known, stored, fun entry member => ?_, records, origins⟩⟩
  have leafAt := tracks.grown.shaped.mem_leaves.mp member
  have length : (recordsOf (inputs.map (callIn keys)) entry.1).length ≤ inputs.length := by
    rw [length_recordsOf, ← List.length_map (f := callIn keys)]
    exact List.countP_le_length
  have solutions := tracks.solutions _ _ leafAt
  rw [Nat.mod_eq_of_lt (lt_of_le_of_lt length short)] at solutions
  exact ⟨by omega, by rw [tracks.records _ _ leafAt, solutions]⟩

end Indexed

/-! ### What the search returns -/

/-- The variables and ranges of a bare query have no child nodes. -/
theorem childless_of_bare {query : CmmlToken} (bare : Bare query) :
    ∀ node ∈ subtrees query, node.getType ≠ .constant → node.getChildNodes = [] := by
  intro node inside special
  have shape := bare node inside
  rwa [if_neg special] at shape

section Search

open Classical

variable {D : Doubles} {keys : List Str} {inputs : List (CmmlToken × Str × CrawlId)} {index : TmpIndex}
  {formulaDb : MemFormulaDb} {context : SearchContext D} {query : CmmlToken} {pattern : EncodedFormula}

/-- A token in the index is one of a node that has been indexed. -/
theorem Holds.exists_symbol (holds : Holds keys inputs index formulaDb) {entry : EncodedFormula × TmpLeaf}
    (member : entry ∈ index.leaves) {token : EncodedToken} (inside : token ∈ entry.1) :
    ∃ symbol : Str × Nat, symbol.1 ∈ keys ∧ token = code keys symbol := by
  obtain ⟨input, among, located, accepted, same⟩ := (holds.stored entry.1).mp (List.mem_map_of_mem member)
  rw [← same, formulaOf] at inside
  obtain ⟨symbol, spelt, rfl⟩ := List.mem_map.mp inside
  exact ⟨symbol, (holds.known input among located accepted symbol spelt).1, rfl⟩

/-- The formulas of the leaves that match a query. -/
noncomputable def wantedFormulas (context : SearchContext D) (index : TmpIndex) (pattern : EncodedFormula) :
    List EncodedFormula :=
  (index.leaves.filter fun entry => ∃ substitution, Instance EncodedToken.arity EncodedToken.role (accepts context)
    substitution pattern entry.1).map Prod.fst

theorem mem_wantedFormulas {formula : EncodedFormula} : formula ∈ wantedFormulas context index pattern ↔
    formula ∈ index.leaves.map Prod.fst ∧ ∃ substitution,
      Instance EncodedToken.arity EncodedToken.role (accepts context) substitution pattern formula := by
  rw [wantedFormulas, List.mem_map, List.mem_map]
  constructor
  · rintro ⟨entry, member, rfl⟩
    obtain ⟨inside, matched⟩ := List.mem_filter.mp member
    exact ⟨⟨entry, inside, rfl⟩, of_decide_eq_true matched⟩
  · rintro ⟨⟨entry, inside, rfl⟩, matched⟩
    exact ⟨entry, List.mem_filter.mpr ⟨inside, decide_eq_true matched⟩, rfl⟩

/-- **The records of the leaves that match are the expected answers**, in some order. -/
theorem perm_expected (holds : Holds keys inputs index formulaDb) (roomy : Roomy keys)
    (decodes : DecodesMeanings context keys) (bare : ∀ node ∈ subtrees query, node.getType ≠ .constant → node.getChildNodes = [])
    (stands : List.Forall₂ (Stands keys (namesOfQuery query) context.rangeBounds) (subtrees query) pattern)
    (crawlDb : MemCrawlDb) :
    ((matchingLeaves context index pattern).flatMap fun leaf =>
      (formulaDb.mData leaf.id).map (DbQueryManager.answerOf crawlDb)).Perm (expectedAnswers D crawlDb inputs query) := by
  have leaves : (matchingLeaves context index pattern).flatMap (fun leaf =>
      (formulaDb.mData leaf.id).map (DbQueryManager.answerOf crawlDb)) =
        (wantedFormulas context index pattern).flatMap (postings (fun located => formulaOf keys located.token)
          (fun input => acceptedNodes input.1) (answerAt crawlDb) inputs) := by
    rw [matchingLeaves, wantedFormulas, List.flatMap_map, List.flatMap_map]
    refine List.flatMap_congr fun entry member => ?_
    rw [holds.records entry (List.mem_of_mem_filter member), postings, postings, List.map_filterMap]
    refine List.filterMap_congr fun input _ => ?_
    rw [Option.map_map]
    rfl
  have nodup : (wantedFormulas context index pattern).Nodup :=
    holds.nodup.sublist (List.filter_sublist.map Prod.fst)
  rw [leaves]
  refine (perm_postings nodup _ _ inputs).trans (List.Perm.of_eq ?_)
  rw [expectedAnswers]
  refine List.flatMap_congr fun input member => congrArg (List.map (answerAt crawlDb input)) ?_
  have known := holds.known input member
  have same : firsts (fun located => formulaOf keys located.token) (acceptedNodes input.1) =
      firsts (fun located => symbols located.token) (acceptedNodes input.1) := firsts_congr fun one inside other among =>
    formulaOf_eq_iff roomy (known other among) (known one inside)
  rw [foundIn, ← same]
  refine List.filter_congr fun located first => decide_eq_decide.mpr ?_
  have accepted := mem_of_mem_firsts first
  rw [mem_wantedFormulas, exists_instance_iff roomy decodes bare stands (known located accepted)]
  exact and_iff_right ((holds.stored _).mpr ⟨input, member, located, accepted, rfl⟩)

/-- The records of any database that has them for every formula in some order. -/
theorem perm_expected_of_perm (holds : Holds keys inputs index formulaDb) (roomy : Roomy keys)
    (decodes : DecodesMeanings context keys) (bare : ∀ node ∈ subtrees query, node.getType ≠ .constant → node.getChildNodes = [])
    (stands : List.Forall₂ (Stands keys (namesOfQuery query) context.rangeBounds) (subtrees query) pattern)
    {crawlDb : MemCrawlDb} {records : Nat → List Answer} (recorded : ∀ entry ∈ index.leaves,
      (records entry.2.id).Perm ((formulaDb.mData entry.2.id).map (DbQueryManager.answerOf crawlDb))) :
    ((matchingLeaves context index pattern).flatMap fun leaf => records leaf.id).Perm
      (expectedAnswers D crawlDb inputs query) := by
  refine List.Perm.trans (List.Perm.flatMap_left _ fun leaf member => ?_) (perm_expected holds roomy decodes bare stands crawlDb)
  obtain ⟨entry, inside, rfl⟩ := List.mem_map.mp member
  exact recorded entry (List.mem_of_mem_filter inside)

/-- A query that cannot be encoded has no answers. -/
theorem expectedAnswers_eq_nil (holds : Holds keys inputs index formulaDb) (crawlDb : MemCrawlDb)
    (bare : Bare query) (unknown : ¬∀ node ∈ subtrees query, node.getType = .constant →
      node.getMeaning ∈ keys ∧ node.getArity ≤ encTokMaxArity) : expectedAnswers D crawlDb inputs query = [] := by
  refine List.flatMap_eq_nil_iff.mpr fun input member => List.map_eq_nil_iff.mpr ?_
  refine List.filter_eq_nil_iff.mpr fun located first answers => unknown fun node inside constant => ?_
  obtain ⟨assignment, fills⟩ := of_decide_eq_true answers
  obtain ⟨spelt, narrow⟩ := holds.known input member located (mem_of_mem_firsts first) _
    (fills.exists_symbol (childless_of_bare bare) node inside constant)
  exact ⟨spelt, le_trans (Nat.mod_le _ _) narrow⟩

variable {dictionary : MeaningDictionary}

/-- What the dictionary decodes. -/
theorem decodesMeanings_new (numbered : dictionary.Numbered keys) (roomy : Roomy keys) (options : QueryOptions)
    (rangeBounds : List (Nat × D.Carrier × D.Carrier)) :
    DecodesMeanings (new pattern options rangeBounds (some dictionary)) keys :=
  fun _ member arity => ⟨_, rfl, getMeaning_of_numbered numbered roomy member arity⟩

/-- **A query that is accepted can be answered.** -/
theorem Holds.answerable (holds : Holds keys inputs index formulaDb) (numbered : dictionary.Numbered keys)
    (roomy : Roomy keys) (bare : Bare query) (own : OwnIds ((subtrees query).map nodeKind))
    (ok : (encodeQuery D ⟨false⟩ dictionary query).2.2 = 0) :
    Answerable (encodeQuery D ⟨false⟩ dictionary query).2.1.rangeBounds (some dictionary) index
      (encodeQuery D ⟨false⟩ dictionary query).1 := by
  obtain ⟨complete, info, given, bounds⟩ := @encode_isQueryCode D (.new dictionary) keys numbered roomy ⟨false⟩ query bare
    own.enough ⟨[], [], []⟩ ok
  have same : (encodeQuery D ⟨false⟩ dictionary query).2.1 = info :=
    congrArg (fun given : Option (ExpressionInfo D) => given.getD ⟨[], [], []⟩) given
  refine ⟨complete, fun token member isRange => ?_, fun _ entry member token inside _ => ?_⟩
  · rw [same]
    exact bounds token member isRange
  · obtain ⟨symbol, spelt, rfl⟩ := holds.exists_symbol member inside
    exact ⟨dictionary, symbol.1, rfl, getMeaning_of_numbered numbered roomy spelt symbol.2⟩

/-- **The search over what has been indexed**, in memory and over an image: it returns pages of the expected answers,
with any database that has the records of every formula in some order. -/
theorem getResult_retrieves (holds : Holds keys inputs index formulaDb) (numbered : dictionary.Numbered keys)
    (roomy : Roomy keys) (bare : Bare query) (own : OwnIds ((subtrees query).map nodeKind))
    (ok : (encodeQuery D ⟨false⟩ dictionary query).2.2 = 0) {crawlDb : MemCrawlDb} {dbQuery : DbQuery}
    {records : Nat → List Answer} (slices : dbQuery.Slices records) (recorded : ∀ entry ∈ index.leaves,
      (records entry.2.id).Perm ((formulaDb.mData entry.2.id).map (DbQueryManager.answerOf crawlDb))) :
    ∃ answers, answers.Perm (expectedAnswers D crawlDb inputs query) ∧
      ∀ (options : QueryOptions) (offset size maxTotal : Nat), options.includeHits = true → offset + size < 2 ^ 32 →
        maxTotal < 2 ^ 31 → ∃ enough result,
          result.answers = positions answers offset (min (offset + size) maxTotal) ∧
          result.total = min (answers.length : Int) maxTotal ∧ ∀ fuel, enough ≤ fuel →
            (new (encodeQuery D ⟨false⟩ dictionary query).1 options
              (encodeQuery D ⟨false⟩ dictionary query).2.1.rangeBounds (some dictionary)).getResult tmpIndexAccessor index
                dbQuery fuel offset size maxTotal = some result ∧
            ∀ handle : IndexHandle, Represents Fits handle.image index.root handle.root →
              (new (encodeQuery D ⟨false⟩ dictionary query).1 options
                (encodeQuery D ⟨false⟩ dictionary query).2.1.rangeBounds (some dictionary)).getResult indexAccessor handle
                  dbQuery fuel offset size maxTotal = some result := by
  obtain ⟨info, given, stands⟩ := @encode_stands D keys (.new dictionary) query numbered roomy bare own ok
  have same : (encodeQuery D ⟨false⟩ dictionary query).2.1 = info :=
    congrArg (fun given : Option (ExpressionInfo D) => given.getD ⟨[], [], []⟩) given
  rw [← same] at stands
  have answerable := holds.answerable numbered roomy bare own ok
  have lengths : ∀ entry ∈ index.leaves, (records entry.2.id).length = entry.2.solutions := fun entry member => by
    rw [(recorded entry member).length_eq, List.length_map, (holds.counted entry member).2]
  refine ⟨(matchingLeaves (new (encodeQuery D ⟨false⟩ dictionary query).1 {}
    (encodeQuery D ⟨false⟩ dictionary query).2.1.rangeBounds (some dictionary)) index
      (encodeQuery D ⟨false⟩ dictionary query).1).flatMap fun leaf => records leaf.id,
    perm_expected_of_perm holds roomy (decodesMeanings_new numbered roomy {} _) (childless_of_bare bare) stands recorded, ?_⟩
  intro options offset size maxTotal includeHits fits small
  obtain ⟨enough, result, isPage, computed⟩ := @getResult_isPage_shaped D index dbQuery offset size maxTotal
    (encodeQuery D ⟨false⟩ dictionary query).1 options (encodeQuery D ⟨false⟩ dictionary query).2.1.rangeBounds
    (some dictionary) records holds.shape answerable slices (fun leaf among => by
      obtain ⟨entry, inside, rfl⟩ := List.mem_map.mp among
      have member := List.mem_of_mem_filter inside
      exact ⟨(holds.counted entry member).1, lengths entry member⟩) small fits
  refine ⟨enough, result, isPage.answers_eq includeHits, ?_, computed⟩
  rw [isPage.total_hits includeHits, List.length_flatMap]
  refine congrArg (fun counts : List Nat => min (counts.sum : Int) maxTotal) (List.map_congr_left fun leaf among => ?_)
  obtain ⟨entry, inside, rfl⟩ := List.mem_map.mp among
  exact (lengths entry (List.mem_of_mem_filter inside)).symm

end Search

/-! ### Requests -/

section Requests

variable {C : Type} {D : Doubles}

/-- The handler of a harvest that has been indexed. -/
def handlerOf (crawlDb : MemCrawlDb) (builder : IndexBuilder MemFormulaDb C) : HarvestQueryHandler :=
  ⟨builder.meaningDictionary, crawlDb, builder.formulaDb, builder.index, builder.indexingOptions⟩

/-- A request for a page of hits, with sums that fit into the integers of the search. -/
structure Asks (mwsQuery : Query) (query : CmmlToken) : Prop where
  token : mwsQuery.tokens.head? = some query
  hits : mwsQuery.options.includeHits = true
  fits : castUnsigned mwsQuery.attrResultLimitMin + castUnsigned mwsQuery.attrResultMaxSize < 2 ^ 32
  small : unsignedOfInt mwsQuery.attrResultTotalReqNr < 2 ^ 31

/-- The page of answers that is asked for. -/
structure IsRequestedPage (mwsQuery : Query) (answers : List Answer) (result : MwsAnswset) : Prop where
  answers_eq : result.answers = positions answers (castUnsigned mwsQuery.attrResultLimitMin)
    (min (castUnsigned mwsQuery.attrResultLimitMin + castUnsigned mwsQuery.attrResultMaxSize)
      (unsignedOfInt mwsQuery.attrResultTotalReqNr))
  total_eq : result.total = min (answers.length : Int) (unsignedOfInt mwsQuery.attrResultTotalReqNr)

/-- What is said about the origins in the database is known. -/
theorem Holds.crawlsKnown {crawlDb : MemCrawlDb} {inputs : List (CmmlToken × Str × CrawlId)} {keys : List Str}
    {index : TmpIndex} {formulaDb : MemFormulaDb} (harvested : Harvested crawlDb inputs)
    (holds : Holds keys inputs index formulaDb) : DbQueryManager.CrawlsKnown crawlDb formulaDb := by
  intro id info member notNull
  obtain ⟨input, among, _, _, rfl⟩ := holds.origins id info member
  exact harvested.crawled input among notNull

/-- The databases in memory have the records. -/
theorem answers_ofMemory {crawlDb : MemCrawlDb} {inputs : List (CmmlToken × Str × CrawlId)} {keys : List Str}
    {index : TmpIndex} {formulaDb : MemFormulaDb} (harvested : Harvested crawlDb inputs)
    (holds : Holds keys inputs index formulaDb) : (DbQueryManager.ofMemory crawlDb formulaDb).answers.Slices fun id =>
      (formulaDb.mData id).map (DbQueryManager.answerOf crawlDb) :=
  DbQueryManager.answers_memory (holds.crawlsKnown harvested)

/-- **How a request for a query is answered**: the query is encoded and searched for in the index in memory, or in an
image of it. -/
def SearchedFor (D : Doubles) (index : TmpIndex) (dictionary : MeaningDictionary) (dbQuery : DbQuery) (query : CmmlToken)
    (fuel : Nat) (mwsQuery : Query) (response : Option MwsAnswset) : Prop :=
  response = (answerQuery D tmpIndexAccessor index dictionary ⟨false⟩ dbQuery mwsQuery query fuel).map
      (withQvars D (encodeQuery D ⟨false⟩ dictionary query).2.1) ∨
    ∃ handle : IndexHandle, Represents Fits handle.image index.root handle.root ∧
      response = (answerQuery D indexAccessor handle dictionary ⟨false⟩ dbQuery mwsQuery query fuel).map
        (withQvars D (encodeQuery D ⟨false⟩ dictionary query).2.1)

/-- **What a handler answers**: pages of the expected answers, with the variables of the query. -/
theorem Holds.pages {keys : List Str} {inputs : List (CmmlToken × Str × CrawlId)} {index : TmpIndex}
    {formulaDb : MemFormulaDb} (holds : Holds keys inputs index formulaDb) {dictionary : MeaningDictionary}
    (numbered : dictionary.Numbered keys) (roomy : Roomy keys) {query : CmmlToken} (bare : Bare query)
    (own : OwnIds ((subtrees query).map nodeKind)) {crawlDb : MemCrawlDb} {dbQuery : DbQuery}
    {records : Nat → List Answer} (slices : dbQuery.Slices records) (recorded : ∀ entry ∈ index.leaves,
      (records entry.2.id).Perm ((formulaDb.mData entry.2.id).map (DbQueryManager.answerOf crawlDb)))
    {respond : Nat → Query → Option MwsAnswset} (searched : ∀ fuel mwsQuery, Asks mwsQuery query →
      SearchedFor D index dictionary dbQuery query fuel mwsQuery (respond fuel mwsQuery)) :
    ∃ answers, answers.Perm (expectedAnswers D crawlDb inputs query) ∧ ∀ mwsQuery, Asks mwsQuery query →
      ∃ enough result, IsRequestedPage mwsQuery answers
          (withQvars D (encodeQuery D ⟨false⟩ dictionary query).2.1 result) ∧
        ∀ fuel, enough ≤ fuel → respond fuel mwsQuery =
          some (withQvars D (encodeQuery D ⟨false⟩ dictionary query).2.1 result) := by
  by_cases ok : (encodeQuery D ⟨false⟩ dictionary query).2.2 = 0
  · obtain ⟨answers, perm, pages⟩ := getResult_retrieves holds numbered roomy bare own ok slices recorded
    refine ⟨answers, perm, fun mwsQuery asks => ?_⟩
    obtain ⟨enough, result, page, total, computed⟩ := pages mwsQuery.options _ _ _ asks.hits asks.fits asks.small
    refine ⟨enough, result, ⟨page, total⟩, fun fuel more => ?_⟩
    rcases searched fuel mwsQuery asks with response | ⟨handle, root, response⟩
    · rw [response, answerQuery]
      simp only [ok, if_true, (computed fuel more).1, Option.map_some]
    · rw [response, answerQuery]
      simp only [ok, if_true, (computed fuel more).2 handle root, Option.map_some]
  · refine ⟨[], ?_, fun mwsQuery asks => ⟨0, .empty, ⟨?_, ?_⟩, fun fuel _ => ?_⟩⟩
    · have known := @encode_known_iff D keys (.new dictionary) query numbered roomy own ⟨[], [], []⟩
      rw [expectedAnswers_eq_nil holds crawlDb bare (mt known.mpr ok)]
    · simp [withQvars, MwsAnswset.empty, positions]
    · simp [withQvars, MwsAnswset.empty]
    · rcases searched fuel mwsQuery asks with response | ⟨handle, -, response⟩ <;>
      · rw [response, answerQuery]
        simp only [ok, if_false, Option.map_some]

/-- **What the handler of a harvest answers.** -/
theorem handlerOf_pages {crawlDb : MemCrawlDb} {inputs : List (CmmlToken × Str × CrawlId)}
    (harvested : Harvested crawlDb inputs) {builder : IndexBuilder MemFormulaDb C} {keys : List Str}
    (options : builder.indexingOptions = ⟨false⟩) (numbered : builder.meaningDictionary.Numbered keys) (roomy : Roomy keys)
    (holds : Holds keys inputs builder.index builder.formulaDb) {query : CmmlToken} (bare : Bare query)
    (own : OwnIds ((subtrees query).map nodeKind)) :
    ∃ answers, answers.Perm (expectedAnswers D crawlDb inputs query) ∧ ∀ mwsQuery, Asks mwsQuery query →
      ∃ enough result, IsRequestedPage mwsQuery answers (withQvars D
          (encodeQuery D ⟨false⟩ builder.meaningDictionary query).2.1 result) ∧
        ∀ fuel, enough ≤ fuel → (handlerOf crawlDb builder).handleQuery D fuel mwsQuery =
          some (withQvars D (encodeQuery D ⟨false⟩ builder.meaningDictionary query).2.1 result) := by
  refine holds.pages numbered roomy bare own (answers_ofMemory harvested holds) (fun _ _ => .refl _)
    fun fuel mwsQuery asks => .inl ?_
  rw [HarvestQueryHandler.handleQuery_eq, asks.token, Option.bind_some, handlerOf, options]

/-- **Retrieval.** Index any harvest without renaming, and ask for any query whose variables and ranges have no child
nodes and ids of their own. There is one order of the expected answers such that every request for this query returns
the requested page of them, and how many there are. -/
theorem handleQuery_retrieves {crawlDb : MemCrawlDb} {inputs : List (CmmlToken × Str × CrawlId)}
    (harvested : Harvested crawlDb inputs) (putData : C → Str → Option (C × CrawlId)) (crawls : Option C) (nextId : Nat) :
    ∃ builder numbers, indexAll ⟨MemFormulaDb.insertFormula, putData⟩ inputs (fresh crawls .empty ⟨false⟩ nextId) =
        some (builder, numbers) ∧
      ∀ query, Bare query → OwnIds ((subtrees query).map nodeKind) →
        ∃ answers, answers.Perm (expectedAnswers D crawlDb inputs query) ∧ ∀ mwsQuery, Asks mwsQuery query →
          ∃ enough result, IsRequestedPage mwsQuery answers result ∧
            ∀ fuel, enough ≤ fuel → (handlerOf crawlDb builder).handleQuery D fuel mwsQuery = some result := by
  obtain ⟨builder, numbers, keys, indexed, options, numbered, roomy, holds⟩ :=
    indexAll_holds harvested putData crawls nextId
  refine ⟨builder, numbers, indexed, fun query bare own => ?_⟩
  obtain ⟨answers, perm, pages⟩ := handlerOf_pages (D := D) harvested options numbered roomy holds bare own
  refine ⟨answers, perm, fun mwsQuery asks => ?_⟩
  obtain ⟨enough, result, page, computed⟩ := pages mwsQuery asks
  exact ⟨enough, _, page, computed⟩

/-! ### Reported positions -/

/-- **What is published for the variables**: the names of all occurrences that have one, in the order of the query, and
their paths. -/
structure Publishes (query : CmmlToken) (result : MwsAnswset) : Prop where
  names : result.qvarNames = (namedVars (foreachSubexpression query)).map fun located => located.token.getVarName
  xpaths : result.qvarXpaths = (namedVars (foreachSubexpression query)).map Located.getXpathRelative

/-- **What an answer says about positions**: its path leads to a node of an expression that answers the query, and the
path of each variable behind it to the subtree that the variable stands for. -/
def Locates (D : Doubles) (crawlDb : MemCrawlDb) (inputs : List (CmmlToken × Str × CrawlId)) (query : CmmlToken)
    (result : MwsAnswset) (answer : Answer) : Prop :=
  ∃ input ∈ inputs, ∃ located ∈ acceptedNodes input.1, answer = answerAt crawlDb input located ∧
    input.1.resolve answer.xpath = some located.token ∧ ∃ assignment : Str → CmmlToken,
      Fills D (fun name inner => symbols (assignment name) = symbols inner) query located.token ∧
      List.Forall₂ (fun name xpath => ∃ inner, input.1.resolve (answer.xpath ++ xpath) = some inner ∧
        symbols (assignment name) = symbols inner) result.qvarNames result.qvarXpaths

open Classical in
/-- An expected answer. -/
theorem locates_of_mem {crawlDb : MemCrawlDb} {inputs : List (CmmlToken × Str × CrawlId)} {query : CmmlToken}
    {answer : Answer} (expected : answer ∈ expectedAnswers D crawlDb inputs query) (bare : Bare query)
    {info : ExpressionInfo D} (reports : Reports (foreachSubexpression query) info) (result : MwsAnswset) :
    Locates D crawlDb inputs query (withQvars D info result) answer := by
  obtain ⟨input, among, member⟩ := List.mem_flatMap.mp expected
  obtain ⟨located, found, rfl⟩ := List.mem_map.mp member
  obtain ⟨first, answers⟩ := List.mem_filter.mp found
  have accepted := mem_of_mem_firsts first
  have visited := List.mem_of_mem_filter accepted
  obtain ⟨assignment, fills⟩ := of_decide_eq_true answers
  refine ⟨input, among, located, accepted, rfl, ?_, assignment, fills, ?_⟩
  · exact (resolve_getXpath input.1 located).trans (descend_of_mem visited)
  · rw [withQvars, reports.names, reports.xpaths, List.forall₂_map_left_iff, List.forall₂_map_right_iff, List.forall₂_same]
    exact fun var inside => fills.resolve visited (childless_of_bare bare) inside

/-- **Reported positions are right.** In the answers to any request for any such query, over any harvest, there is a path
for every occurrence of a variable with a name, if the query is found at all; the path of an answer with the path of a
variable behind it leads to the subtree that the variable stands for, and the same variable stands for the same. -/
theorem handleQuery_locates {crawlDb : MemCrawlDb} {inputs : List (CmmlToken × Str × CrawlId)}
    (harvested : Harvested crawlDb inputs) (putData : C → Str → Option (C × CrawlId)) (crawls : Option C) (nextId : Nat) :
    ∃ builder numbers, indexAll ⟨MemFormulaDb.insertFormula, putData⟩ inputs (fresh crawls .empty ⟨false⟩ nextId) =
        some (builder, numbers) ∧
      ∀ query, Bare query → OwnIds ((subtrees query).map nodeKind) → ∀ mwsQuery, Asks mwsQuery query →
        ∃ enough result, (∀ fuel, enough ≤ fuel → (handlerOf crawlDb builder).handleQuery D fuel mwsQuery = some result) ∧
          (expectedAnswers D crawlDb inputs query ≠ [] → Publishes query result) ∧
          ∀ answer ∈ result.answers, Locates D crawlDb inputs query result answer := by
  obtain ⟨builder, numbers, keys, indexed, options, numbered, roomy, holds⟩ :=
    indexAll_holds harvested putData crawls nextId
  refine ⟨builder, numbers, indexed, fun query bare own mwsQuery asks => ?_⟩
  obtain ⟨answers, perm, pages⟩ := handlerOf_pages (D := D) harvested options numbered roomy holds bare own
  obtain ⟨enough, result, page, computed⟩ := pages mwsQuery asks
  have known := @encode_known_iff D keys (.new builder.meaningDictionary) query numbered roomy own ⟨[], [], []⟩
  -- a query that is found can be encoded, and then all of its variables are reported
  have reported : expectedAnswers D crawlDb inputs query ≠ [] →
      Reports (foreachSubexpression query) (encodeQuery D ⟨false⟩ builder.meaningDictionary query).2.1 := by
    intro found
    have ok : (encode .query (.new builder.meaningDictionary) ⟨false⟩ (.root query)
        (some (⟨[], [], []⟩ : ExpressionInfo D))).2 = 0 := by
      by_contra fails
      exact found (expectedAnswers_eq_nil holds crawlDb bare (mt known.mpr fails))
    obtain ⟨info, given, reports⟩ := @encode_reports D (.new builder.meaningDictionary) query .query ⟨false⟩
      (accepted_all_iff.mpr fun node inside constant => (known.mp ok node inside constant).2)
    have same : (encodeQuery D ⟨false⟩ builder.meaningDictionary query).2.1 = info :=
      congrArg (fun given : Option (ExpressionInfo D) => given.getD ⟨[], [], []⟩) given
    exact same ▸ reports
  refine ⟨enough, _, computed, fun found => ⟨(reported found).names, (reported found).xpaths⟩, fun answer member => ?_⟩
  rw [page.answers_eq, positions] at member
  have expected := perm.mem_iff.mp (List.mem_of_mem_take (List.mem_of_mem_drop member))
  exact locates_of_mem expected bare (reported (List.ne_nil_of_mem expected)) result

end Requests

/-! ### A harvest of one expression -/

/-- `f(x, x)`. -/
def pairTree : CmmlToken :=
  .mk ['a'] [] .empty [.mk ['f'] [] .empty [], .mk ['x'] [] .empty [], .mk ['x'] [] .empty []]

/-- `f(v, v)`, for a variable `v`. -/
def pairQuery : CmmlToken :=
  .mk ['a'] [] .empty [.mk ['f'] [] .empty [], .mk qvarTag [(varNameAttr, ['v'])] .empty [],
    .mk qvarTag [(varNameAttr, ['v'])] .empty []]

/-- The harvest with this one expression. -/
def pairHarvest : List (CmmlToken × Str × CrawlId) := [(pairTree, ['d'], 0)]

theorem acceptedNodes_pairTree : acceptedNodes pairTree = preorder pairTree none [] := by
  rw [acceptedNodes, foreachSubexpression_eq]
  rfl

open Classical in
theorem foundIn_pairTree : foundIn Doubles.whole pairQuery pairTree = [.root pairTree] := by
  have nodes : firsts (fun located => symbols located.token) (acceptedNodes pairTree) = (preorder pairTree none []).take 3 := by
    rw [acceptedNodes_pairTree]
    rfl
  have root : AnswersQuery Doubles.whole pairQuery pairTree := by
    refine ⟨fun _ => .mk ['x'] [] .empty [], (fills_constant rfl).mpr ⟨rfl, fillAll_iff.mpr ?_⟩⟩
    refine .cons ((fills_constant rfl).mpr ⟨rfl, fillAll_nil.mpr rfl⟩) (.cons ?_ (.cons ?_ .nil))
    · exact (fills_var rfl).mpr fun _ => rfl
    · exact (fills_var rfl).mpr fun _ => rfl
  have inner : ∀ located ∈ ((preorder pairTree none []).take 3).tail,
      ¬AnswersQuery Doubles.whole pairQuery located.token := by
    rintro located member ⟨assignment, fills⟩
    have others : ∀ located ∈ ((preorder pairTree none []).take 3).tail, pairQuery.symbol ≠ located.token.symbol := by decide
    exact others located member ((fills_constant rfl).mp fills).1
  rw [foundIn, nodes]
  show List.filter _ (Located.root pairTree :: ((preorder pairTree none []).take 3).tail) = _
  have none : ((preorder pairTree none []).take 3).tail.filter (fun located =>
      decide (AnswersQuery Doubles.whole pairQuery located.token)) = [] :=
    List.filter_eq_nil_iff.mpr fun located member => decide_eq_true_iff.not.mpr (inner located member)
  have kept : (decide (AnswersQuery Doubles.whole pairQuery (Located.root pairTree).token)) = true := decide_eq_true root
  rw [List.filter_cons, if_pos kept, none]

theorem harvested_pairHarvest : Harvested MemCrawlDb.empty pairHarvest := by
  have constants : ∀ input ∈ pairHarvest, Constants input.1 := by
    intro input member node inside
    obtain rfl := List.mem_singleton.mp member
    revert node
    decide
  have meanings : (dictionaryAfterAll ⟨false⟩ .empty pairHarvest).map.length < 2 ^ 24 - 161 := by with_unfolding_all decide
  obtain ⟨keys, -, -, -, calls⟩ := callsOf_empty constants meanings
  refine ⟨by decide, constants, meanings, ?_, by decide, by decide⟩
  rw [calls]
  refine lt_of_le_of_lt (List.toFinset_card_le _) ?_
  show ((callIn keys (pairTree, ['d'], 0)).formulas ++ []).length < 2 ^ 32
  rw [List.append_nil, Call.formulas, callIn, List.length_map, List.length_map, acceptedNodes_pairTree]
  decide

/-- `f(v, v)` is asked for. -/
def pairRequest : Query := { Query.new ⟨.mwsXml, 'a'⟩ with tokens := [pairQuery] }

/-- What is expected. -/
theorem expectedAnswers_pairHarvest : expectedAnswers Doubles.whole MemCrawlDb.empty pairHarvest pairQuery =
    [⟨[], ['d'], ['/', '*', '[', '1', ']']⟩] := by
  rw [expectedAnswers, pairHarvest, List.flatMap_singleton, foundIn_pairTree]
  rfl

/-- It is found. -/
theorem handleQuery_retrieves_pairTree : ∃ builder numbers,
    indexAll memDatabases pairHarvest (fresh (some .empty) .empty ⟨false⟩ 0) = some (builder, numbers) ∧
      ∃ enough result, result.answers = [⟨[], ['d'], ['/', '*', '[', '1', ']']⟩] ∧ result.total = 1 ∧
        ∀ fuel, enough ≤ fuel →
          (handlerOf MemCrawlDb.empty builder).handleQuery Doubles.whole fuel pairRequest = some result := by
  obtain ⟨builder, numbers, indexed, retrieves⟩ := @handleQuery_retrieves MemCrawlDb Doubles.whole _ _ harvested_pairHarvest
    MemCrawlDb.putData (some .empty) 0
  obtain ⟨answers, perm, pages⟩ := retrieves pairQuery (by unfold Bare; decide) ⟨by decide, by decide, by decide⟩
  rw [expectedAnswers_pairHarvest] at perm
  obtain rfl := List.perm_singleton.mp perm
  obtain ⟨enough, result, page, computed⟩ := pages pairRequest ⟨rfl, rfl, by decide, by decide⟩
  exact ⟨builder, numbers, indexed, enough, result, page.answers_eq, page.total_eq, computed⟩

/-- The variable `v` is the same `x` twice, and both are reported. -/
theorem handleQuery_locates_pairTree : ∃ builder numbers,
    indexAll memDatabases pairHarvest (fresh (some .empty) .empty ⟨false⟩ 0) = some (builder, numbers) ∧
      ∃ enough result, (∀ fuel, enough ≤ fuel →
          (handlerOf MemCrawlDb.empty builder).handleQuery Doubles.whole fuel pairRequest = some result) ∧
        result.qvarNames = [['v'], ['v']] ∧
        result.qvarXpaths = [['/', '*', '[', '2', ']'], ['/', '*', '[', '3', ']']] ∧
        ∀ answer ∈ result.answers, Locates Doubles.whole MemCrawlDb.empty pairHarvest pairQuery result answer := by
  obtain ⟨builder, numbers, indexed, locates⟩ := @handleQuery_locates MemCrawlDb Doubles.whole _ _ harvested_pairHarvest
    MemCrawlDb.putData (some .empty) 0
  obtain ⟨enough, result, computed, published, located⟩ := locates pairQuery (by unfold Bare; decide)
    ⟨by decide, by decide, by decide⟩ pairRequest ⟨rfl, rfl, by decide, by decide⟩
  have found : expectedAnswers Doubles.whole MemCrawlDb.empty pairHarvest pairQuery ≠ [] := by
    rw [expectedAnswers_pairHarvest]
    exact List.cons_ne_nil _ _
  obtain ⟨names, xpaths⟩ := published found
  exact ⟨builder, numbers, indexed, enough, result, computed, names.trans (by with_unfolding_all rfl),
    xpaths.trans (by with_unfolding_all rfl), located⟩

end Retrieval

end MathWebSearch
