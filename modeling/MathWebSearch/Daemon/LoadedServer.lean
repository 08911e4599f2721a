/-
**A server over harvest files** (`HarvestQueryHandler`).

The constructor loads the files of the directories into memory, and requests are answered from there. What a client sees
depends on the documents alone: the expressions, their `url`s and the data that are given for them. Nodes of the trie have
fewer than `2 ^ 31` children, as a `VectorMap` can have.

* `HarvestQueryHandler.new` — the constructor.
* `documentAnswers` — what has to be found in expressions.
* `new_answers` — every request returns the requested page of this, for what the reader takes down of the files.
* `new_retrieves` — **every request returns the requested page of this, for the expressions of the documents**.
* `new_completes` — the server starts.
-/

import MathWebSearch.Daemon.Retrieval
import MathWebSearch.Index.HarvestDocuments

namespace MathWebSearch

open CmmlToken IndexBuilder HarvestReader EventStream Retrieval ExpressionEncoder QueryTrees

/-- The constructor of `HarvestQueryHandler`: the databases, the index and the dictionary are members of their own. -/
def HarvestQueryHandler.new (W : TextWriter) (config : HarvesterConfiguration) (encoding : EncoderConfig) (nextId fuel : Nat)
    (directories : List (List HarvestFile)) : Option HarvestQueryHandler := do
  let loading ← loadHarvests memDatabases tmpIndexAccessor W config fuel directories
    ⟨.empty, some .empty, .empty nextId, .empty, encoding⟩
  let crawlDb ← loading.indexBuilder.crawlDb
  return ⟨loading.indexBuilder.meaningDictionary, crawlDb, loading.indexBuilder.formulaDb, loading.indexBuilder.index,
    encoding⟩

namespace LoadedServer

/-! ### What has to be found -/

section Expected

variable (D : Doubles)

/-- **What a query finds in expressions**: in every expression the first of each kind of subtrees that answer the query,
with the `url` and the data of the expression. -/
noncomputable def documentAnswers (expressions : List (CmmlToken × Str × Str)) (query : CmmlToken) : List Answer :=
  expressions.flatMap fun expression => (foundIn D query expression.1).map fun located =>
    ⟨expression.2.2, expression.2.1, located.getXpath⟩

variable {D} {puts : List Str} {inputs : List (CmmlToken × Str × CrawlId)} {expressions : List (CmmlToken × Str × Str)}
  {crawlDb : MemCrawlDb}

/-- The answer for a node of an expression has the data of the expression. -/
theorem answerAt_eq (represents : crawlDb.Represents puts) {input : CmmlToken × Str × CrawlId}
    {expression : CmmlToken × Str × Str} (carries : Carries puts input expression) (located : Located) :
    answerAt crawlDb input located = ⟨expression.2.2, expression.2.1, located.getXpath⟩ := by
  obtain ⟨-, uri, data⟩ := carries
  rw [answerAt, DbQueryManager.answerOf, ← uri, ← data]
  by_cases null : input.2.2 = crawlIdNull
  · simp only [null, ne_eq, not_true_eq_false, if_false]
    rfl
  · simp only [ne_eq, null, not_false_eq_true, if_true, represents.holds]
    rfl

/-- What is found in what has been indexed is what is found in the documents. -/
theorem expectedAnswers_eq (represents : crawlDb.Represents puts)
    (carried : List.Forall₂ (Carries puts) inputs expressions) (query : CmmlToken) :
    expectedAnswers D crawlDb inputs query = documentAnswers D expressions query := by
  induction carried with
  | nil => rfl
  | @cons input expression inputs expressions carries _ ih =>
    rw [expectedAnswers, documentAnswers, List.flatMap_cons, List.flatMap_cons, carries.1]
    refine congrArg₂ (· ++ ·) (List.map_congr_left fun located _ => ?_) ih
    exact answerAt_eq represents carries located

end Expected

/-! ### Documents as a server may have them -/

/-- Expressions without crawl ids. -/
def withoutCrawlIds (expressions : List (CmmlToken × Str × Str)) : List (CmmlToken × Str × CrawlId) :=
  expressions.map fun expression => (expression.1, expression.2.1, crawlIdNull)

/-- The dictionary depends on the trees only. -/
theorem dictionaryAfterAll_congr (config : EncoderConfig) {inputs others : List (CmmlToken × Str × CrawlId)}
    (same : inputs.map Prod.fst = others.map Prod.fst) (dictionary : MeaningDictionary) :
    dictionaryAfterAll config dictionary inputs = dictionaryAfterAll config dictionary others := by
  have plain : ∀ inputs : List (CmmlToken × Str × CrawlId), dictionaryAfterAll config dictionary inputs =
      (inputs.map Prod.fst).foldl (dictionaryAfter config) dictionary := fun inputs => (List.foldl_map ..).symm
  rw [plain, plain, same]

/-- So do the formulas that are inserted. -/
theorem formulas_callsOf_congr (config : EncoderConfig) (inputs : List (CmmlToken × Str × CrawlId)) :
    ∀ {others : List (CmmlToken × Str × CrawlId)} (_ : inputs.map Prod.fst = others.map Prod.fst)
      (dictionary : MeaningDictionary), (callsOf config dictionary inputs).flatMap Call.formulas =
        (callsOf config dictionary others).flatMap Call.formulas := by
  induction inputs with
  | nil =>
    intro others same dictionary
    rw [List.map_eq_nil_iff.mp same.symm]
  | cons input rest ih =>
    intro others same dictionary
    obtain ⟨other, others, rfl, token, sameRest⟩ := List.map_eq_cons_iff.mp same.symm
    rw [callsOf, callsOf, List.flatMap_cons, List.flatMap_cons, ih sameRest.symm, token]
    congr 1
    rw [callOf, callOf, Call.formulas, Call.formulas, token]

theorem map_fst_of_carries {puts : List Str} {inputs : List (CmmlToken × Str × CrawlId)}
    {expressions : List (CmmlToken × Str × Str)} (carried : List.Forall₂ (Carries puts) inputs expressions) :
    inputs.map Prod.fst = (withoutCrawlIds expressions).map Prod.fst := by
  rw [withoutCrawlIds, List.map_map]
  induction carried with
  | nil => rfl
  | cons carries _ ih => rw [List.map_cons, List.map_cons, ih, carries.1]; rfl

/-- Whether expressions are as a harvest may have them depends on the trees only. -/
theorem harvested_congr {crawlDb crawlDb' : MemCrawlDb} {inputs others : List (CmmlToken × Str × CrawlId)}
    (harvested : Harvested crawlDb others) (same : inputs.map Prod.fst = others.map Prod.fst)
    (crawled : ∀ input ∈ inputs, input.2.2 ≠ crawlIdNull → (crawlDb'.getData input.2.2).isSome) :
    Harvested crawlDb' inputs := by
  have length : inputs.length = others.length := by simpa using congrArg List.length same
  refine ⟨fun none => harvested.nonempty ?_, fun input member => ?_, ?_, ?_, length ▸ harvested.few, crawled⟩
  · rw [none] at length
    exact List.eq_nil_of_length_eq_zero length.symm
  · have inside : input.1 ∈ others.map Prod.fst := same ▸ List.mem_map_of_mem member
    obtain ⟨other, among, token⟩ := List.mem_map.mp inside
    exact token ▸ harvested.constants other among
  · rw [dictionaryAfterAll_congr _ same]
    exact harvested.meanings
  · rw [formulas_callsOf_congr _ _ same]
    exact harvested.formulas

/-! ### The server -/

section Server

variable {D : Doubles} {W : TextWriter} {config : HarvesterConfiguration} {nextId fuel : Nat}
  {directories : List (List HarvestFile)}

/-- What a server has loaded. -/
theorem new_loads {encoding : EncoderConfig} {handler : HarvestQueryHandler}
    (made : HarvestQueryHandler.new W config encoding nextId fuel directories = some handler) :
    ∃ loading inputs, loadHarvests memDatabases tmpIndexAccessor W config fuel directories
        ⟨.empty, some .empty, .empty nextId, .empty, encoding⟩ = some loading ∧
      loading.indexBuilder.crawlDb = some handler.crawlDb ∧
      handler = ⟨loading.indexBuilder.meaningDictionary, handler.crawlDb, loading.indexBuilder.formulaDb,
        loading.indexBuilder.index, encoding⟩ ∧
      Loads ⟨.empty, some .empty, .empty nextId, .empty, encoding⟩ loading.indexBuilder
        (directories.flatMap (harvestExpressions W config)) inputs loading.numExpressions := by
  obtain ⟨loading, loaded, later⟩ := Option.bind_eq_some_iff.mp made
  obtain ⟨crawlDb, has, same⟩ := Option.bind_eq_some_iff.mp later
  obtain rfl := Option.some.inj same
  obtain ⟨inputs, loads⟩ := loadHarvests_loads loaded
  exact ⟨loading, inputs, loaded, has, rfl, loads⟩

/-- What has been loaded, with the data in the crawl database. -/
theorem Loads.carried {encoding : EncoderConfig} {builder : IndexBuilder MemFormulaDb MemCrawlDb}
    {expressions : List (CmmlToken × Str × Str)} {inputs : List (CmmlToken × Str × CrawlId)} {number : Nat}
    (loads : Loads ⟨.empty, some .empty, .empty nextId, .empty, encoding⟩ builder expressions inputs number)
    {crawlDb : MemCrawlDb} (has : builder.crawlDb = some crawlDb) (few : crawlDb.mData.length < 2 ^ 32) :
    ∃ puts, crawlDb.Represents puts ∧ crawlDb.mData.length = puts.length ∧
      List.Forall₂ (Carries puts) inputs expressions ∧
      ∀ input ∈ inputs, input.2.2 ≠ crawlIdNull → (crawlDb.getData input.2.2).isSome := by
  obtain ⟨-, follows⟩ := loads.data ⟨crawlDb, has, few⟩
  obtain ⟨texts, ⟨crawlDb', has', represents, length⟩, carried⟩ :=
    follows [] ⟨.empty, rfl, MemCrawlDb.represents_empty, rfl⟩
  obtain rfl := Option.some.inj (has.symm.trans has')
  refine ⟨texts, represents, length, ?_, fun input member notNull => ?_⟩
  · have here := carried []
    rwa [List.append_nil] at here
  · obtain ⟨crawlDb', has', known⟩ := loads.indexed.crawled input member notNull
    obtain rfl := Option.some.inj (has.symm.trans has')
    exact known

/-- A server that has loaded harvest files without renaming answers with what the query finds in the expressions that the
reader takes down. -/
theorem new_answers (harvested : Harvested .empty (withoutCrawlIds (directories.flatMap (harvestExpressions W config))))
    {handler : HarvestQueryHandler} (made : HarvestQueryHandler.new W config ⟨false⟩ nextId fuel directories = some handler)
    (few : handler.crawlDb.mData.length < 2 ^ 32) {query : CmmlToken} (bare : Bare query)
    (own : OwnIds ((subtrees query).map nodeKind)) :
    ∃ answers, answers.Perm (documentAnswers D (directories.flatMap (harvestExpressions W config)) query) ∧
      ∀ mwsQuery, Asks mwsQuery query → ∃ enough result, IsRequestedPage mwsQuery answers result ∧
        ∀ fuel, enough ≤ fuel → handler.handleQuery D fuel mwsQuery = some result := by
  obtain ⟨loading, inputs, -, has, same, loads⟩ := new_loads made
  obtain ⟨puts, represents, -, carried, crawled⟩ := Loads.carried loads has few
  have harvested := harvested_congr harvested (map_fst_of_carries carried) crawled
  obtain ⟨numbers, indexed, -⟩ := loads.indexed.indexed
  obtain ⟨builder, numbers', keys, indexed', options, numbered, roomy, holds⟩ :=
    indexAll_holds harvested MemCrawlDb.putData (some .empty) nextId
  obtain ⟨built, -⟩ := Prod.mk.inj (Option.some.inj (indexed'.symm.trans indexed))
  obtain ⟨answers, perm, pages⟩ := handlerOf_pages (D := D) harvested options numbered roomy holds bare own
  refine ⟨answers, perm.trans (.of_eq (expectedAnswers_eq represents carried query)), fun mwsQuery asks => ?_⟩
  obtain ⟨enough, result, page, computed⟩ := pages mwsQuery asks
  have handled : handlerOf handler.crawlDb builder = handler := by
    rw [same, handlerOf, options, built]
    rfl
  rw [handled] at computed
  exact ⟨enough, _, page, computed⟩

/-- **From the documents to the answers.** A server that has loaded files with documents, without renaming, answers every
query whose variables and ranges have no child nodes and ids of their own: there is one order of what the query finds in
the expressions of the documents such that every request returns the requested page of it, and how much there is. -/
theorem new_retrieves {documents : List (List DocumentFile)}
    (delivers : List.Forall₂ (List.Forall₂ (Delivers config)) documents directories)
    (harvested : Harvested .empty (withoutCrawlIds (documents.flatMap (documentExpressions W config))))
    {handler : HarvestQueryHandler} (made : HarvestQueryHandler.new W config ⟨false⟩ nextId fuel directories = some handler)
    (few : handler.crawlDb.mData.length < 2 ^ 32) {query : CmmlToken} (bare : Bare query)
    (own : OwnIds ((subtrees query).map nodeKind)) :
    ∃ answers, answers.Perm (documentAnswers D (documents.flatMap (documentExpressions W config)) query) ∧
      ∀ mwsQuery, Asks mwsQuery query → ∃ enough result, IsRequestedPage mwsQuery answers result ∧
        ∀ fuel, enough ≤ fuel → handler.handleQuery D fuel mwsQuery = some result := by
  have same : directories.flatMap (harvestExpressions W config) = documents.flatMap (documentExpressions W config) :=
    harvestExpressions_documents delivers
  rw [← same] at harvested ⊢
  exact new_answers harvested made few bare own

/-- **The server starts**, when nothing is logged. -/
theorem new_completes (encoding : EncoderConfig) (quiet : config.logging = false)
    (can : CanLoad W config [] (directories.flatMap (loadedFiles config))) :
    ∃ handler, HarvestQueryHandler.new W config encoding nextId fuel directories = some handler ∧
      handler.crawlDb.mData.length < 2 ^ 32 := by
  obtain ⟨loading, loaded, ⟨crawlDb, has, few⟩, -⟩ := @loadHarvests_completes tmpIndexAccessor W config fuel quiet directories
    ⟨.empty, some .empty, .empty nextId, .empty, encoding⟩ []
    ⟨loaded_new _ _ _ _, .empty, rfl, MemCrawlDb.represents_empty, rfl⟩ can
  refine ⟨⟨loading.indexBuilder.meaningDictionary, crawlDb, loading.indexBuilder.formulaDb, loading.indexBuilder.index,
    encoding⟩, ?_, few⟩
  rw [HarvestQueryHandler.new, loaded, Option.bind_eq_bind, Option.bind_some, has]
  rfl

end Server

/-! ### A directory with two files -/

/-- `f(x, x)`. -/
def pairApply : XmlNode :=
  .element ['a'] [] [.element ['f'] [] [], .element ['x'] [] [], .element ['x'] [] []]

/-- An expression that refers to data given twice, with text and an unknown element between them. -/
def pairDocument : HarvestDocument where
  name := mwsharvestMainName
  attrs := []
  children :=
    [.element mwsharvestDataName [(mwsharvestAttrLocalidName, ['1'])] [.text ['c']], .text [' '],
      .element mwsharvestDataName [(mwsharvestAttrLocalidName, ['1'])] [.text ['d']],
      .element ['s'] [] [.text ['t']],
      .element mwsharvestExprName [(mwsharvestExprAttrXmlidName, ['u']), (mwsharvestAttrLocalidName, ['1'])] [pairApply]]

/-- As the parser delivers it. -/
def pairEvents : List XmlEvent :=
  [.startElement mwsharvestMainName [],
    .startElement mwsharvestDataName [(mwsharvestAttrLocalidName, ['1'])], .characters ['c'],
    .endElement mwsharvestDataName, .characters [' '],
    .startElement mwsharvestDataName [(mwsharvestAttrLocalidName, ['1'])], .characters ['d'],
    .endElement mwsharvestDataName, .startElement ['s'] [], .characters ['t'], .endElement ['s'],
    .startElement mwsharvestExprName [(mwsharvestExprAttrXmlidName, ['u']), (mwsharvestAttrLocalidName, ['1'])],
    .startElement ['a'] [], .startElement ['f'] [], .endElement ['f'], .startElement ['x'] [], .endElement ['x'],
    .startElement ['x'] [], .endElement ['x'], .endElement ['a'], .endElement mwsharvestExprName,
    .endElement mwsharvestMainName]

/-- The directory with this file and one that is not loaded. -/
def pairFiles : List DocumentFile := [⟨['q'], none⟩, ⟨['p'], some pairDocument⟩]

def pairDirectory : List HarvestFile := [⟨['q'], none⟩, ⟨['p'], some pairEvents⟩]

/-- Data are loaded, and nothing is logged. -/
def pairConfig : HarvesterConfiguration := ⟨false, ['p'], false⟩

theorem delivered_pairDocument :
    Delivered [.element pairDocument.name pairDocument.attrs pairDocument.children] pairEvents := by
  have one : ∀ (chunk : Str) {rest : List XmlNode} {events : List XmlEvent}, Delivered rest events →
      Delivered (.text chunk :: rest) (.characters chunk :: events) := fun chunk {rest events} behind => by
    have whole := @Delivered.text Char [chunk] rest events (List.cons_ne_nil _ _) behind
    rwa [List.flatten_singleton] at whole
  have empty : ∀ (name : Str) {rest : List XmlNode} {events : List XmlEvent}, Delivered rest events →
      Delivered (.element name [] [] :: rest) (.startElement name [] :: .endElement name :: events) :=
    fun name {_ _} behind => Delivered.element name [] .nil behind
  have pair := Delivered.element ['a'] [] (empty ['f'] (empty ['x'] (empty ['x'] .nil))) .nil
  have expr := Delivered.element mwsharvestExprName
    [(mwsharvestExprAttrXmlidName, ['u']), (mwsharvestAttrLocalidName, ['1'])] pair .nil
  have unknown := Delivered.element ['s'] [] (one ['t'] .nil) expr
  have later := Delivered.element mwsharvestDataName [(mwsharvestAttrLocalidName, ['1'])] (one ['d'] .nil) unknown
  have earlier := Delivered.element mwsharvestDataName [(mwsharvestAttrLocalidName, ['1'])] (one ['c'] .nil)
    (one [' '] later)
  exact Delivered.element mwsharvestMainName [] earlier .nil

theorem delivers_pairFiles :
    List.Forall₂ (List.Forall₂ (Delivers pairConfig)) [pairFiles] [pairDirectory] :=
  .cons (.cons (.skipped rfl) (.cons (.opened delivered_pairDocument rfl) .nil)) .nil

/-- The later data are those of the expression. -/
theorem documentExpressions_pairFiles :
    documentExpressions plainWriter pairConfig pairFiles = [(pairTree, ['u'], ['d'])] := rfl

theorem harvestExpressions_pairDirectory :
    harvestExpressions plainWriter pairConfig pairDirectory = [(pairTree, ['u'], ['d'])] := rfl

theorem documentAnswers_pairTree :
    documentAnswers Doubles.whole [(pairTree, ['u'], ['d'])] pairQuery = [⟨['d'], ['u'], ['/', '*', '[', '1', ']']⟩] := by
  rw [documentAnswers, List.flatMap_singleton, foundIn_pairTree]
  rfl

theorem canLoad_pairDirectory :
    CanLoad plainWriter pairConfig [] ([pairDirectory].flatMap (loadedFiles pairConfig)) where
  readable := by
    intro events member
    obtain rfl := List.mem_singleton.mp member
    rfl
  shaped := by
    intro expression member
    obtain rfl : expression = (pairTree, ['u'], ['d']) := List.mem_singleton.mp member
    exact (harvested_pairHarvest.constants _ (List.mem_singleton_self _)).wellShaped
  few := by
    show ([] ++ [['c'], ['d']] : List Str).length < 2 ^ 32
    decide

/-- `f(v, v)` is found, with the later data. -/
theorem new_retrieves_pairDirectory : ∃ handler,
    HarvestQueryHandler.new plainWriter pairConfig ⟨false⟩ 0 0 [pairDirectory] = some handler ∧
      ∃ enough result, result.answers = [⟨['d'], ['u'], ['/', '*', '[', '1', ']']⟩] ∧ result.total = 1 ∧
        ∀ fuel, enough ≤ fuel → handler.handleQuery Doubles.whole fuel pairRequest = some result := by
  obtain ⟨handler, made, few⟩ := @new_completes plainWriter pairConfig 0 0 [pairDirectory] ⟨false⟩ rfl canLoad_pairDirectory
  have expressions : [pairFiles].flatMap (documentExpressions plainWriter pairConfig) = [(pairTree, ['u'], ['d'])] := by
    rw [List.flatMap_singleton, documentExpressions_pairFiles]
  have harvested : Harvested .empty
      (withoutCrawlIds ([pairFiles].flatMap (documentExpressions plainWriter pairConfig))) := by
    rw [expressions]
    refine harvested_congr harvested_pairHarvest rfl fun input member notNull => ?_
    obtain rfl : input = (pairTree, ['u'], crawlIdNull) := List.mem_singleton.mp member
    exact absurd rfl notNull
  have bare : Bare pairQuery := by
    unfold Bare
    decide
  obtain ⟨answers, perm, pages⟩ := new_retrieves (D := Doubles.whole) delivers_pairFiles harvested made few bare
    ⟨by decide, by decide, by decide⟩
  rw [expressions, documentAnswers_pairTree] at perm
  obtain rfl := List.perm_singleton.mp perm
  obtain ⟨enough, result, page, computed⟩ := pages pairRequest ⟨rfl, rfl, by decide, by decide⟩
  exact ⟨handler, made, enough, result, page.answers_eq, page.total_eq, computed⟩

end LoadedServer

end MathWebSearch
