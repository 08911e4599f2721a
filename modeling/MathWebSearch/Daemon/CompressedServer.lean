/-
**A server over an index on disk** (`IndexLoader`, `IndexQueryHandler`).

The files of a directory are opened, and requests are answered from there. They have been written once, by
`createCompressedIndex`; what a client sees still depends on the documents alone. Both databases are ordered maps whose
`Put` succeeds, as those of leveldb.

* `IndexLoader.new`, `IndexQueryHandler.new` — the constructors.
* `answers_onDisk` — the databases on disk answer with slices.
* `createCompressedIndex_retrieves` — **from the documents over the disk to the answers**.
-/

import MathWebSearch.Daemon.LoadedServer
import MathWebSearch.Index.IndexWriter
import MathWebSearch.Index.StoredMeanings

namespace MathWebSearch

open CmmlToken IndexBuilder IdDictionary HarvestReader Retrieval ExpressionEncoder QueryTrees LoadedServer

/-! ### The code -/

/-- `LevFormulaDb::open`, on a path with a database: the counter begins anew. -/
def LevFormulaDb.openDatabase (mDatabase : OrderedMap Str Str) : LevFormulaDb := ⟨mDatabase, 0⟩

/-- `IndexLoader`: what its getters return. -/
structure IndexLoader where
  meaningDictionary : MeaningDictionary
  dbQueryManager : Option DbQueryManager
  indexHandle : IndexHandle

/-- The constructor; it throws when the memsector cannot be loaded. -/
def IndexLoader.new (files : CompressedIndex) (includeHits : Bool) : Option IndexLoader :=
  let meaningDictionary := importFile files.meaningDictionary
  -- only with the databases there are hits
  let dbQueryManager : Option DbQueryManager :=
    if includeHits then
      let formulaDb := LevFormulaDb.openDatabase files.formulaDb
      let crawlDb := LevCrawlDb.openDatabase files.crawlDb
      some ⟨some crawlDb.getData, formulaDb.queryFormula⟩
    else none
  (Memsector.load files.memsector).map fun header =>
    ⟨meaningDictionary, dbQueryManager, ⟨files.memsector, Memsector.getRoot header⟩⟩

/-- The constructor of `IndexQueryHandler`, with the default options of the loader. -/
def IndexQueryHandler.new (files : CompressedIndex) (encoding : EncoderConfig) (useExperimentalQueryEngine : Bool) :
    Option IndexQueryHandler := do
  let index ← IndexLoader.new files true
  let dbQueryManager ← index.dbQueryManager
  return ⟨index.meaningDictionary, index.indexHandle, dbQueryManager, encoding, useExperimentalQueryEngine⟩

namespace CompressedServer

/-! ### The databases -/

section Databases

variable {crawlDb : MemCrawlDb} {formulaDb : MemFormulaDb} {lev : LevCrawlDb} {formulas : LevFormulaDb}

/-- The manager of databases that are opened. -/
def managerOf (crawlDb formulaDb : OrderedMap Str Str) : DbQueryManager :=
  ⟨some (LevCrawlDb.openDatabase crawlDb).getData, (LevFormulaDb.openDatabase formulaDb).queryFormula⟩

/-- **The databases on disk answer with slices**, and have the occurrences of the databases in memory in some order. -/
theorem answers_onDisk (texts : SameTexts crawlDb lev) (occurrences : SameFormulas formulaDb (some formulas))
    (known : DbQueryManager.CrawlsKnown crawlDb formulaDb) : ∃ records : Nat → List Answer,
      (managerOf lev.mDatabase formulas.mDatabase).answers.Slices records ∧
      ∀ id, (records id).Perm ((formulaDb.mData id).map (DbQueryManager.answerOf crawlDb)) := by
  obtain ⟨puts, represents, represents', -⟩ := texts
  obtain ⟨_, calls, same, stores, held⟩ := occurrences
  obtain rfl := Option.some.inj same
  refine ⟨fun id => (LevFormulaDb.recordsInKeyOrder calls id).map (DbQueryManager.answerOf crawlDb), ?_, fun id => ?_⟩
  · intro id offset size
    have passes : ∀ info ∈ (LevFormulaDb.recordsInKeyOrder calls id).drop offset, ∀ items,
        (managerOf lev.mDatabase formulas.mDatabase).formulaQueryCallback DbQueryManager.pushAnswer items info.crawlId
          info.formulaPath = some (items ++ [DbQueryManager.answerOf crawlDb info], 0) := by
      intro info member items
      have inside : info ∈ formulaDb.mData id := by
        rw [held, ← (LevFormulaDb.recordsInKeyOrder_perm calls id).mem_iff]
        exact List.mem_of_mem_drop member
      by_cases null : info.crawlId = crawlIdNull
      · simp [managerOf, DbQueryManager.formulaQueryCallback, DbQueryManager.pushAnswer, DbQueryManager.answerOf, null]
      · obtain ⟨data, found⟩ := Option.isSome_iff_exists.mp (known id info inside null)
        have onDisk : (LevCrawlDb.openDatabase lev.mDatabase).getData info.crawlId = some data := by
          rw [← found, represents.holds]
          exact represents'.holds info.crawlId
        simp [managerOf, DbQueryManager.formulaQueryCallback, DbQueryManager.pushAnswer, DbQueryManager.answerOf, null, found,
          onDisk]
    have stored := MemFormulaDb.passOn_store _ passes size []
    have queried := stores.queryFormula (List Answer) id offset size
      ((managerOf lev.mDatabase formulas.mDatabase).formulaQueryCallback DbQueryManager.pushAnswer) []
    rw [stored] at queried
    show Option.map Prod.fst (formulas.queryFormula (List Answer) id offset size _ []) = _
    rw [queried, Option.map_some, List.nil_append, List.map_take, List.map_drop]
  · rw [held]
    exact (LevFormulaDb.recordsInKeyOrder_perm calls id).map _

end Databases

/-! ### Documents that fit -/

/-- The tokens of the formulas that an expression inserts. -/
def tokensOf (tree : CmmlToken) : Nat := ((acceptedNodes tree).map fun located => (symbols located.token).length).sum

/-- **Expressions for which an index can be written**: there is one, all nodes are constants with names that can be
written line by line, and there are few enough names, and tokens in all formulas, and short enough paths. -/
structure FitsDisk (expressions : List (CmmlToken × Str × Str)) : Prop where
  nonempty : expressions ≠ []
  constants : ∀ expression ∈ expressions, Constants expression.1
  names : ∀ expression ∈ expressions, ∀ node ∈ subtrees expression.1, nul ∉ node.getMeaning
  meanings : (dictionaryAfterAll ⟨false⟩ .empty (withoutCrawlIds expressions)).map.length < 2 ^ 24 - 161
  tokens : 16 * (expressions.map fun expression => tokensOf expression.1).sum + 36 < 2 ^ 34
  paths : ∀ expression ∈ expressions, ∀ located ∈ acceptedNodes expression.1,
    expression.2.1.length + located.getXpath.length + 64 < 2 ^ 64

section Sizes

variable {keys : List Str} {inputs : List (CmmlToken × Str × CrawlId)}

/-- Every formula has a token. -/
theorem length_acceptedNodes_le (tree : CmmlToken) : (acceptedNodes tree).length ≤ tokensOf tree := by
  rw [tokensOf, ← List.length_map (f := fun located : Located => (symbols located.token).length)]
  refine List.length_le_sum_of_one_le _ fun count member => ?_
  obtain ⟨located, -, rfl⟩ := List.mem_map.mp member
  rw [symbols_eq, List.length_cons]
  exact Nat.le_add_left 1 _

/-- The formulas of a call. -/
theorem formulas_callIn (input : CmmlToken × Str × CrawlId) :
    (callIn keys input).formulas = (acceptedNodes input.1).map fun located => formulaOf keys located.token := by
  rw [Call.formulas, callIn, List.map_map]
  rfl

/-- The tokens of all formulas. -/
theorem sum_tokensOf (keys : List Str) (inputs : List (CmmlToken × Str × CrawlId)) :
    (((inputs.map (callIn keys)).flatMap Call.formulas).map List.length).sum =
      (inputs.map fun input => tokensOf input.1).sum := by
  induction inputs with
  | nil => rfl
  | cons input rest ih =>
    rw [List.map_cons, List.flatMap_cons, List.map_append, List.sum_append, ih, List.map_cons, List.sum_cons,
      formulas_callIn, List.map_map, tokensOf]
    refine congrArg (fun counts : List Nat => counts.sum + _) (List.map_congr_left fun located _ => ?_)
    exact List.length_map _

/-- The number of all formulas. -/
theorem sum_formulas_le (keys : List Str) (inputs : List (CmmlToken × Str × CrawlId)) :
    ((inputs.map (callIn keys)).map fun call => call.formulas.length).sum ≤ (inputs.map fun input => tokensOf input.1).sum := by
  rw [List.map_map]
  refine List.sum_le_sum fun input _ => ?_
  show (callIn keys input).formulas.length ≤ _
  rw [formulas_callIn, List.length_map]
  exact length_acceptedNodes_le input.1

/-- The sums depend on the trees only. -/
theorem sum_tokensOf_congr {inputs others : List (CmmlToken × Str × CrawlId)}
    (same : inputs.map Prod.fst = others.map Prod.fst) :
    (inputs.map fun input => tokensOf input.1).sum = (others.map fun input => tokensOf input.1).sum := by
  have plain : ∀ inputs : List (CmmlToken × Str × CrawlId), inputs.map (fun input => tokensOf input.1) =
      (inputs.map Prod.fst).map tokensOf := fun inputs => by rw [List.map_map]; rfl
  rw [plain, plain, same]

/-- So there are few formulas, and few expressions. -/
theorem FitsDisk.harvested {expressions : List (CmmlToken × Str × Str)} (fits : FitsDisk expressions) :
    Harvested .empty (withoutCrawlIds expressions) := by
  have constants : ∀ input ∈ withoutCrawlIds expressions, Constants input.1 := by
    intro input member
    obtain ⟨expression, among, rfl⟩ := List.mem_map.mp member
    exact fits.constants expression among
  have tokens : ((withoutCrawlIds expressions).map fun input => tokensOf input.1).sum < 2 ^ 30 := by
    have few := fits.tokens
    have plain : (withoutCrawlIds expressions).map (fun input => tokensOf input.1) =
        expressions.map fun expression => tokensOf expression.1 := List.map_map
    rw [plain]
    omega
  obtain ⟨keys, -, -, -, calls⟩ := callsOf_empty constants fits.meanings
  refine ⟨fun none => fits.nonempty (List.map_eq_nil_iff.mp none), constants, fits.meanings, ?_, ?_,
    fun input member notNull => ?_⟩
  · refine lt_of_le_of_lt (List.toFinset_card_le _) (lt_of_le_of_lt ?_ (lt_trans tokens (by decide)))
    rw [calls, List.length_flatMap]
    exact sum_formulas_le keys _
  · refine lt_of_le_of_lt ?_ tokens
    rw [← List.length_map (f := fun input : CmmlToken × Str × CrawlId => tokensOf input.1)]
    refine List.length_le_sum_of_one_le _ fun count member => ?_
    obtain ⟨input, -, rfl⟩ := List.mem_map.mp member
    exact le_trans (List.length_pos_iff.mpr (acceptedNodes_ne_nil input.1)) (length_acceptedNodes_le input.1)
  · obtain ⟨expression, -, rfl⟩ := List.mem_map.mp member
    exact absurd rfl notNull

/-- **The names in the dictionary** are those of constants. -/
theorem names_of_numbered {dictionary : MeaningDictionary} (numbered : dictionary.Numbered keys)
    (made : dictionary = dictionaryAfterAll ⟨false⟩ .empty inputs) {key : Str} (member : key ∈ keys) :
    ∃ input ∈ inputs, ∃ node ∈ subtrees input.1, key = node.getMeaning := by
  obtain ⟨sound, -⟩ := @mem_storedMeanings ⟨false⟩ inputs .empty
  rw [dictionaryAfterAll_storedMeanings] at made
  have few : dictionary.map.length < 2 ^ 32 - 1 := by
    rw [numbered.map_eq, List.length_map, List.length_zipIdx]
    exact numbered.small
  have again := (numbered_of_length (made ▸ few)).1
  rw [← made] at again
  have listed : ∀ {keys : List Str}, dictionary.Numbered keys → dictionary.map.map Prod.fst = keys := fun numbered => by
    rw [numbered.map_eq, List.map_map]
    exact List.zipIdx_map_fst 0 _
  rw [← listed numbered, listed again, mem_concatAll] at member
  obtain ⟨entry, stored, rfl⟩ := List.mem_map.mp (member.resolve_left List.not_mem_nil)
  obtain ⟨input, among, visited, -, -, -, plain⟩ := sound entry stored
  refine ⟨input, among, entry.1.token, mem_subtrees_of_dfs visited, plain fun renamed => ?_⟩
  exact absurd renamed.1 Bool.false_ne_true

/-- **What is indexed can be written**: the leaves fit their fields, the image can be addressed, there are numbers for
all occurrences, and something has been counted. -/
theorem indexAll_fits {C : Type} {putData : C → Str → Option (C × CrawlId)} {crawls : Option C} {nextId : Nat}
    {crawlDb : MemCrawlDb} (harvested : Harvested crawlDb inputs)
    (tokens : 16 * (inputs.map fun input => tokensOf input.1).sum + 36 < 2 ^ 34)
    {builder : IndexBuilder MemFormulaDb C} {numbers : List Int}
    (indexed : indexAll ⟨MemFormulaDb.insertFormula, putData⟩ inputs (fresh crawls .empty ⟨false⟩ nextId) =
      some (builder, numbers)) (holds : Holds keys inputs builder.index builder.formulaDb) :
    (∀ entry ∈ builder.index.leaves, Fits entry.2) ∧ 16 * TmpIndex.tokensBelow builder.index.leaves + 36 < 2 ^ 34 ∧
      (∀ ids, builder.formulaDb.occurrences ids < 2 ^ 32) ∧ (numbers.filter (· ≠ -1)).sum % 2 ^ 64 ≠ 0 := by
  obtain ⟨nonempty, constants, meanings, formulas, -, -⟩ := harvested
  obtain ⟨keys', -, -, -, calls⟩ := callsOf_empty constants meanings
  obtain ⟨builder', indexed', tracks, -, -⟩ := @indexAll_tracks C putData inputs [] (fresh crawls .empty ⟨false⟩ nextId)
    (tracks_empty nextId) (isPrefixCode_of_mem_callsOf inputs fun input member => (constants input member).wellShaped)
    formulas.le
  obtain ⟨rfl, counted⟩ := Prod.mk.inj (Option.some.inj (indexed.symm.trans indexed'))
  have counted : numbers = (inputs.map (callIn keys')).map fun call => castInt call.formulas.toFinset.card := by
    rw [← calls]
    exact counted
  refine ⟨fun entry member => ⟨(holds.counted entry member).1, tracks.grown.id_lt entry member⟩, ?_, fun ids => ?_, ?_⟩
  · have inserted : ∀ entry ∈ builder.index.leaves, entry.1 ∈ (inputs.map (callIn keys)).flatMap Call.formulas := by
      intro entry member
      obtain ⟨input, among, located, accepted, same⟩ := (holds.stored entry.1).mp (List.mem_map_of_mem member)
      refine List.mem_flatMap.mpr ⟨_, List.mem_map_of_mem among, ?_⟩
      rw [formulas_callIn, ← same]
      exact List.mem_map_of_mem accepted
    have below := TmpIndex.tokensBelow_le holds.nodup inserted
    rw [sum_tokensOf] at below
    omega
  · have stored := occurrences_indexAll ids inputs indexed
    have start : (fresh crawls .empty ⟨false⟩ nextId).formulaDb.occurrences ids = 0 := Finset.sum_eq_zero fun _ _ => rfl
    have calls : callsOf (fresh crawls .empty ⟨false⟩ nextId).indexingOptions
      (fresh crawls .empty ⟨false⟩ nextId).meaningDictionary inputs = inputs.map (callIn keys') := calls
    have few := sum_formulas_le keys' inputs
    rw [start, calls] at stored
    omega
  · have upper : ((inputs.map (callIn keys')).map fun call => call.formulas.toFinset.card).sum ≤
        ((inputs.map (callIn keys')).map fun call => call.formulas.length).sum :=
      List.sum_le_sum fun call _ => List.toFinset_card_le call.formulas
    have few := sum_formulas_le keys' inputs
    have exact : numbers = ((inputs.map (callIn keys')).map fun call => call.formulas.toFinset.card).map Nat.cast := by
      rw [counted, List.map_map (g := Nat.cast)]
      refine List.map_congr_left fun call member => (castInt_natCast_iff _).mpr ?_
      have one : call.formulas.toFinset.card ≤
          ((inputs.map (callIn keys')).map fun call => call.formulas.toFinset.card).sum :=
        List.le_sum_of_mem (List.mem_map_of_mem member)
      omega
    have kept : numbers.filter (· ≠ -1) = numbers := by
      refine List.filter_eq_self.mpr fun number member => decide_eq_true ?_
      rw [exact] at member
      obtain ⟨card, -, rfl⟩ := List.mem_map.mp member
      omega
    have lower : 1 ≤ ((inputs.map (callIn keys')).map fun call => call.formulas.toFinset.card).sum := by
      obtain ⟨input, rest, rfl⟩ := List.exists_cons_of_ne_nil nonempty
      have some : 1 ≤ (callIn keys' input).formulas.toFinset.card := by
        rw [Nat.one_le_iff_ne_zero, Finset.card_ne_zero, List.toFinset_nonempty_iff, formulas_callIn]
        exact fun none => acceptedNodes_ne_nil input.1 (List.map_eq_nil_iff.mp none)
      rw [List.map_cons, List.map_cons, List.sum_cons]
      exact le_add_right some
    rw [kept, exact, ← Nat.cast_list_sum]
    omega

end Sizes

/-! ### The server -/

section Server

variable {D : Doubles} {W : TextWriter} {config : HarvesterConfiguration} {nextId : Nat}
  {directories : List (List HarvestFile)}

/-- Without the experimental engine, the handler encodes the first tree and searches in the image. -/
theorem handleQuery_eq (handler : IndexQueryHandler) (plain : handler.useExperimentalQueryEngine = false) (fuel : Nat)
    (mwsQuery : Query) : handler.handleQuery D fuel mwsQuery = mwsQuery.tokens.head?.bind fun token =>
      (answerQuery D indexAccessor handler.indexHandle handler.meaningDictionary handler.encoding
        handler.dbQueryManager.answers mwsQuery token fuel).map
        (withQvars D (encodeQuery D handler.encoding handler.meaningDictionary token).2.1) := by
  rw [IndexQueryHandler.handleQuery, Option.bind_eq_bind]
  congr 1
  funext token
  rw [Option.map_eq_bind]
  simp only [plain, Bool.false_eq_true, if_false]
  rfl

variable {loading : Loading MemFormulaDb MemCrawlDb} {crawlDb : MemCrawlDb} {keys : List Str} {puts : List Str}
  {inputs : List (CmmlToken × Str × CrawlId)} {expressions : List (CmmlToken × Str × Str)}

/-- The occurrences of documents that fit can be held on disk. -/
theorem FitsDisk.occurrences (fits : FitsDisk expressions) {formulaDb : MemFormulaDb} {index : TmpIndex}
    (few : ∀ ids, formulaDb.occurrences ids < 2 ^ 32) (holds : Holds keys inputs index formulaDb)
    (represents : crawlDb.Represents puts) (short : puts.length < 2 ^ 32)
    (carried : List.Forall₂ (Carries puts) inputs expressions)
    (crawled : ∀ input ∈ inputs, input.2.2 ≠ crawlIdNull → (crawlDb.getData input.2.2).isSome) : formulaDb.FitsDisk := by
  refine ⟨few, fun id info member => ?_⟩
  obtain ⟨input, among, located, accepted, rfl⟩ := holds.origins id info member
  obtain ⟨expression, inside, token, uri, -⟩ := exists_value_of_forall₂ carried among
  constructor
  · show input.2.2 < 2 ^ 32
    by_cases null : input.2.2 = crawlIdNull
    · rw [null]
      decide
    · obtain ⟨text, known⟩ := Option.isSome_iff_exists.mp (crawled input among null)
      rw [represents.holds, CrawlDb.stored, if_neg null] at known
      exact lt_of_le_of_lt (Nat.le_of_pred_lt (List.getElem?_eq_some_iff.mp known).1) short
  · have path := fits.paths expression inside located (token ▸ accepted)
    rw [← uri] at path
    exact path

/-- The names of documents that fit can be written line by line. -/
theorem FitsDisk.written (fits : FitsDisk expressions) {dictionary : MeaningDictionary} (numbered : dictionary.Numbered keys)
    (made : dictionary = dictionaryAfterAll ⟨false⟩ .empty inputs)
    (carried : List.Forall₂ (Carries puts) inputs expressions) :
    ∀ key ∈ keys, key ≠ [] ∧ nul ∉ key := by
  intro key member
  obtain ⟨input, among, node, inside, rfl⟩ := names_of_numbered numbered made member
  obtain ⟨expression, fromInput, token, -⟩ := exists_value_of_forall₂ carried among
  refine ⟨?_, fits.names expression fromInput node (token ▸ inside)⟩
  rw [getMeaning_split]
  simp

/-- **What a server on disk answers**, when its files hold what the loading into memory gives: pages of the expected
answers. -/
theorem pages_onDisk (harvested : Harvested crawlDb inputs)
    (holds : Holds keys inputs loading.indexBuilder.index loading.indexBuilder.formulaDb)
    (numbered : loading.indexBuilder.meaningDictionary.Numbered keys) (roomy : Roomy keys) {lev : LevCrawlDb}
    {formulas : LevFormulaDb} (sameTexts : SameTexts crawlDb lev)
    (sameFormulas : SameFormulas loading.indexBuilder.formulaDb (some formulas)) {handle : IndexHandle}
    (root : Represents Fits handle.image loading.indexBuilder.index.root handle.root) {handler : IndexQueryHandler}
    (opened : handler = ⟨loading.indexBuilder.meaningDictionary, handle, managerOf lev.mDatabase formulas.mDatabase,
      ⟨false⟩, false⟩) {query : CmmlToken} (bare : Bare query) (own : OwnIds ((subtrees query).map nodeKind)) :
    ∃ answers, answers.Perm (expectedAnswers D crawlDb inputs query) ∧ ∀ mwsQuery, Asks mwsQuery query →
      ∃ enough result, IsRequestedPage mwsQuery answers result ∧
        ∀ fuel, enough ≤ fuel → handler.handleQuery D fuel mwsQuery = some result := by
  obtain ⟨records, slices, perm⟩ := answers_onDisk sameTexts sameFormulas (holds.crawlsKnown harvested)
  have searched : ∀ fuel mwsQuery, Asks mwsQuery query → SearchedFor D loading.indexBuilder.index
      loading.indexBuilder.meaningDictionary (managerOf lev.mDatabase formulas.mDatabase).answers query fuel mwsQuery
      (handler.handleQuery D fuel mwsQuery) := by
    intro fuel mwsQuery asks
    refine .inr ⟨handle, root, ?_⟩
    rw [opened, handleQuery_eq _ rfl, asks.token, Option.bind_some]
  obtain ⟨answers, expected, pages⟩ := holds.pages numbered roomy bare own slices (fun entry _ => perm entry.2.id) searched
  refine ⟨answers, expected, fun mwsQuery asks => ?_⟩
  obtain ⟨enough, result, page, computed⟩ := pages mwsQuery asks
  exact ⟨enough, _, page, computed⟩

/-- **From the documents over the disk to the answers.** Documents that can be loaded and fit are written to disk, the
files can be opened, and the server over them answers every query whose variables and ranges have no child nodes and ids
of their own: there is one order of what the query finds in the documents such that every request returns the requested
page of it, and how much there is. -/
theorem createCompressedIndex_retrieves (quiet : config.logging = false)
    (can : CanLoad W config [] (directories.flatMap (loadedFiles config)))
    (short : ∀ text ∈ (directories.flatMap (loadedFiles config)).flatMap (textsIn W (!config.shouldIgnoreData)),
      text.length + 8 < 2 ^ 64) (fits : FitsDisk (directories.flatMap (harvestExpressions W config))) :
    (∀ documents, List.Forall₂ (List.Forall₂ (Delivers config)) documents directories →
      directories.flatMap (harvestExpressions W config) = documents.flatMap (documentExpressions W config)) ∧
    ∃ files enough handler, (∀ fuel, enough ≤ fuel →
        createCompressedIndex W config ⟨false⟩ nextId fuel directories = some (some files)) ∧
      IndexQueryHandler.new files ⟨false⟩ false = some handler ∧
      ∀ query, Bare query → OwnIds ((subtrees query).map nodeKind) → ∃ answers,
        answers.Perm (documentAnswers D (directories.flatMap (harvestExpressions W config)) query) ∧
        ∀ mwsQuery, Asks mwsQuery query → ∃ enough result, IsRequestedPage mwsQuery answers result ∧
          ∀ fuel, enough ≤ fuel → handler.handleQuery D fuel mwsQuery = some result := by
  refine ⟨fun documents => harvestExpressions_documents, ?_⟩
  -- what the loading into memory would give
  obtain ⟨loading, loaded, ⟨crawlDb, has, few⟩, other, has', represents, -⟩ := @loadHarvests_completes
    tmpIndexAccessor W config 0 quiet directories ⟨.empty, some .empty, .empty nextId, .empty, ⟨false⟩⟩ []
    ⟨loaded_new _ _ _ _, .empty, rfl, MemCrawlDb.represents_empty, rfl⟩ can
  obtain rfl := Option.some.inj (has.symm.trans has')
  obtain ⟨inputs, loads⟩ := loadHarvests_loads loaded
  obtain ⟨puts, represents', length, carried, crawled⟩ := Loads.carried loads has few
  have same := map_fst_of_carries carried
  have harvested := harvested_congr fits.harvested same crawled
  obtain ⟨numbers, indexed, counted⟩ := loads.indexed.indexed
  obtain ⟨builder, numbers', keys, indexed', options, numbered, roomy, holds⟩ :=
    indexAll_holds harvested MemCrawlDb.putData (some .empty) nextId
  obtain ⟨rfl, rfl⟩ := Prod.mk.inj (Option.some.inj (indexed'.symm.trans indexed))
  have holds : Holds keys inputs loading.indexBuilder.index loading.indexBuilder.formulaDb := holds
  have numbered : loading.indexBuilder.meaningDictionary.Numbered keys := numbered
  have tokens : 16 * (inputs.map fun input => tokensOf input.1).sum + 36 < 2 ^ 34 := by
    rw [sum_tokensOf_congr same, withoutCrawlIds, List.map_map]
    exact fits.tokens
  obtain ⟨leaves, small, stored, notZero⟩ := indexAll_fits harvested tokens indexed holds
  -- what is on disk instead
  have texts := represents.fitsDisk few short
  obtain ⟨lev, formulas, memsector, header, enough, sameTexts, sameFormulas, load, root, created⟩ :=
    createCompressedIndex_of_loaded quiet loaded has texts
      (fits.occurrences stored holds represents' (length ▸ few) carried crawled)
      (fun none => notZero (by rw [← counted, none]; rfl)) holds.shape leaves small
  have written := fits.written numbered (meaningDictionary_indexAll _ inputs indexed).1 carried
  refine ⟨_, enough, ⟨loading.indexBuilder.meaningDictionary, ⟨memsector, Memsector.getRoot header⟩,
    managerOf lev.mDatabase formulas.mDatabase, ⟨false⟩, false⟩, created, ?_, fun query bare own => ?_⟩
  · rw [IndexQueryHandler.new, IndexLoader.new]
    simp only [load, importFile_save numbered written]
    rfl
  · obtain ⟨answers, expected, pages⟩ := @pages_onDisk D _ _ _ _ harvested holds numbered roomy _ _ sameTexts sameFormulas
      ⟨memsector, Memsector.getRoot header⟩ root _ rfl query bare own
    exact ⟨answers, expected.trans (.of_eq (expectedAnswers_eq represents' carried query)), pages⟩

end Server

/-! ### A directory with one expression -/

theorem fitsDisk_pairDirectory :
    FitsDisk ([pairDirectory].flatMap (harvestExpressions HarvestReader.plainWriter pairConfig)) := by
  rw [List.flatMap_singleton, harvestExpressions_pairDirectory]
  have only : ∀ {Property : CmmlToken × Str × Str → Prop}, Property (pairTree, ['u'], ['d']) →
      ∀ expression ∈ [(pairTree, (['u'] : Str), (['d'] : Str))], Property expression := fun here expression member =>
    List.mem_singleton.mp member ▸ here
  refine ⟨List.cons_ne_nil _ _, only (harvested_pairHarvest.constants _ (List.mem_singleton_self _)), only ?_, ?_, ?_,
    only ?_⟩
  · decide
  · exact harvested_pairHarvest.meanings
  · rw [List.map_singleton, List.sum_singleton, tokensOf, acceptedNodes_pairTree]
    decide
  · rw [acceptedNodes_pairTree]
    decide

/-- `f(v, v)` is found over the disk, with the data. -/
theorem createCompressedIndex_retrieves_pairDirectory : ∃ files enough handler, (∀ fuel, enough ≤ fuel →
    createCompressedIndex HarvestReader.plainWriter pairConfig ⟨false⟩ 0 fuel [pairDirectory] = some (some files)) ∧
      IndexQueryHandler.new files ⟨false⟩ false = some handler ∧
      ∃ enough result, result.answers = [⟨['d'], ['u'], ['/', '*', '[', '1', ']']⟩] ∧ result.total = 1 ∧
        ∀ fuel, enough ≤ fuel → handler.handleQuery Doubles.whole fuel pairRequest = some result := by
  obtain ⟨expressions, files, enough, handler, created, opened, retrieves⟩ :=
    @createCompressedIndex_retrieves Doubles.whole HarvestReader.plainWriter pairConfig 0 [pairDirectory] rfl
      canLoad_pairDirectory (by decide) fitsDisk_pairDirectory
  refine ⟨files, enough, handler, created, opened, ?_⟩
  have bare : Bare pairQuery := by
    unfold Bare
    decide
  obtain ⟨answers, perm, pages⟩ := retrieves pairQuery bare ⟨by decide, by decide, by decide⟩
  rw [expressions [pairFiles] delivers_pairFiles, List.flatMap_singleton, documentExpressions_pairFiles,
    documentAnswers_pairTree] at perm
  obtain rfl := List.perm_singleton.mp perm
  obtain ⟨enough, result, page, computed⟩ := pages pairRequest ⟨rfl, rfl, by decide, by decide⟩
  exact ⟨enough, result, page.answers_eq, page.total_eq, computed⟩

end CompressedServer

end MathWebSearch
