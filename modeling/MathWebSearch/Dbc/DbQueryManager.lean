/-
**Queries of the databases** (`DbQueryManager`).

The manager asks the formula database for the occurrences under a formula id and passes them on with the
data of their crawl ids.

* `answers_memory` — what the search stores as answers, for databases in memory in which every crawl id is
  known: a slice of the occurrences in the order of insertion.
-/

import MathWebSearch.Dbc.MemDb
import MathWebSearch.Query.SearchContext

namespace MathWebSearch

/-- `DbAnswerCallback`, over the variables it captures. -/
abbrev DbAnswerCallback (State : Type) := State → FormulaPath → Str → Option (State × Int)

/-- `DbQueryManager`: what it uses of its two databases, the first of which may be missing. -/
structure DbQueryManager where
  getData : Option (CrawlId → Option Str)
  queryFormula : (State : Type) → Nat → Nat → Nat → QueryCallback State → State → Option (State × Int)

namespace DbQueryManager

/-- `formulaQueryCallback`. -/
def formulaQueryCallback {State : Type} (self : DbQueryManager) (dbAnswerCallback : DbAnswerCallback State) :
    QueryCallback State :=
  fun state crawlId formulaPath =>
    match self.getData with
    | some getData =>
      if crawlId ≠ crawlIdNull then do
        let crawlData ← getData crawlId
        dbAnswerCallback state formulaPath crawlData
      else dbAnswerCallback state formulaPath crawlDataNull
    | none => dbAnswerCallback state formulaPath crawlDataNull

/-- `query`. -/
def query {State : Type} (self : DbQueryManager) (formulaId limitMin limitSize : Nat)
    (dbAnswerCallback : DbAnswerCallback State) (state : State) : Option (State × Int) :=
  self.queryFormula State formulaId limitMin limitSize (self.formulaQueryCallback dbAnswerCallback) state

/-- The callback of `getResult` and of `result_callback`, over the answers stored so far. -/
def pushAnswer : DbAnswerCallback (List Answer) := fun answers formulaPath crawlData =>
  some (answers ++ [⟨crawlData, formulaPath.xmlId, formulaPath.xpath⟩], 0)

/-- The answers that one call of `query` stores. -/
def answers (self : DbQueryManager) : DbQuery := fun formulaId limitMin limitSize =>
  (self.query formulaId limitMin limitSize pushAnswer []).map Prod.fst

/-- The manager of two databases in memory. -/
def ofMemory (crawlDb : MemCrawlDb) (formulaDb : MemFormulaDb) : DbQueryManager :=
  ⟨some crawlDb.getData, formulaDb.queryFormula⟩

end DbQueryManager

/-! ### What a query of the database gives -/

/-- The database answers with slices of one fixed order. -/
def DbQuery.Slices (query : DbQuery) (records : Nat → List Answer) : Prop :=
  ∀ formulaId offset size, query formulaId offset size = some (((records formulaId).drop offset).take size)

namespace DbQueryManager

variable (crawlDb : MemCrawlDb) (formulaDb : MemFormulaDb)

/-- The answer that an occurrence becomes. -/
def answerOf (info : FormulaInfo) : Answer :=
  ⟨if info.crawlId ≠ crawlIdNull then (crawlDb.getData info.crawlId).getD crawlDataNull else crawlDataNull,
    info.formulaPath.xmlId, info.formulaPath.xpath⟩

/-- Every crawl id stored in the formula database has its data in the crawl database. -/
def CrawlsKnown : Prop :=
  ∀ formulaId, ∀ info ∈ formulaDb.mData formulaId,
    info.crawlId ≠ crawlIdNull → (crawlDb.getData info.crawlId).isSome

variable {crawlDb formulaDb}

theorem CrawlsKnown.empty (crawlDb : MemCrawlDb) : CrawlsKnown crawlDb MemFormulaDb.empty := nofun

/-- Inserting an occurrence whose crawl id is null or known. -/
theorem CrawlsKnown.insertFormula (known : CrawlsKnown crawlDb formulaDb) (formulaId : Nat) {crawlId : CrawlId}
    (crawled : crawlId ≠ crawlIdNull → (crawlDb.getData crawlId).isSome) (formulaPath : FormulaPath) :
    CrawlsKnown crawlDb (formulaDb.insertFormula formulaId crawlId formulaPath).1 := by
  intro other info among notNull
  simp only [MemFormulaDb.insertFormula, Function.update_apply] at among
  split_ifs at among with same
  · rcases List.mem_append.mp among with earlier | new
    · exact known formulaId info earlier notNull
    · obtain rfl := List.mem_singleton.mp new
      exact crawled notNull
  · exact known other info among notNull

/-- **Databases in memory answer with slices** of the occurrences in the order of insertion. -/
theorem answers_memory (known : CrawlsKnown crawlDb formulaDb) :
    (ofMemory crawlDb formulaDb).answers.Slices fun formulaId =>
      (formulaDb.mData formulaId).map (answerOf crawlDb) := by
  intro formulaId offset size
  have stores : ∀ info ∈ formulaDb.mData formulaId, ∀ items,
      (ofMemory crawlDb formulaDb).formulaQueryCallback pushAnswer items info.crawlId info.formulaPath =
        some (items ++ [answerOf crawlDb info], 0) := by
    intro info among items
    by_cases null : info.crawlId = crawlIdNull
    · simp [formulaQueryCallback, ofMemory, pushAnswer, answerOf, null]
    · obtain ⟨data, found⟩ := Option.isSome_iff_exists.mp (known formulaId info among null)
      simp [formulaQueryCallback, ofMemory, pushAnswer, answerOf, null, found]
  have stored := formulaDb.queryFormula_store formulaId offset size stores []
  rw [answers, query, show (ofMemory crawlDb formulaDb).queryFormula = formulaDb.queryFormula from rfl, stored]
  simp [List.map_drop, List.map_take]

end DbQueryManager

end MathWebSearch
