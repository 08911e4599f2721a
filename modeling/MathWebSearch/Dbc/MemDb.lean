/-
**The databases in memory** (`MemFormulaDb`, `MemCrawlDb`).

Where a formula occurs is stored under the id of its leaf; what the crawler said about an occurrence is
stored under a crawl id. A callback is a function of the variables it captures, and gives their new values
together with the `int` it returns; `none` is an exception.

* `queryFormula_store` — the callback that stores what it is given sees a slice of what is stored under the
  id, in the order of insertion.
-/

import MathWebSearch.Types.CmmlToken

namespace MathWebSearch

/-- `FormulaPath`. -/
structure FormulaPath where
  xmlId : Str
  xpath : Str
deriving DecidableEq

/-- `CrawlId`, an unsigned integer of 32 bits. -/
abbrev CrawlId := Nat

/-- `CRAWLID_NULL`. -/
def crawlIdNull : CrawlId := 0

/-- `CRAWLDATA_NULL`. -/
def crawlDataNull : Str := []

/-- `QueryCallback`, over the variables it captures. -/
abbrev QueryCallback (State : Type) := State → CrawlId → FormulaPath → Option (State × Int)

/-! ### The databases -/

/-- `MemFormulaDb::FormulaInfo`. -/
structure FormulaInfo where
  crawlId : CrawlId
  formulaPath : FormulaPath
deriving DecidableEq

/-- `MemFormulaDb`; an id without an entry and one with an empty vector are answered alike. -/
structure MemFormulaDb where
  mData : Nat → List FormulaInfo

namespace MemFormulaDb

/-- A new database. -/
def empty : MemFormulaDb := ⟨fun _ => []⟩

/-- `insertFormula`. -/
def insertFormula (self : MemFormulaDb) (formulaId : Nat) (crawlId : CrawlId) (formulaPath : FormulaPath) :
    MemFormulaDb × Int :=
  (⟨Function.update self.mData formulaId (self.mData formulaId ++ [⟨crawlId, formulaPath⟩])⟩, 0)

/-- The loop of `queryFormula`. -/
def passOn {State : Type} (queryCallback : QueryCallback State) :
    Nat → List FormulaInfo → State → Option (State × Int)
  | 0, _, state => some (state, 0)
  | _ + 1, [], state => some (state, 0)
  | limitSize + 1, info :: rest, state => do
    let (state, ret) ← queryCallback state info.crawlId info.formulaPath
    if ret ≠ 0 then return (state, -1) else passOn queryCallback limitSize rest state

/-- `queryFormula`. -/
def queryFormula (self : MemFormulaDb) (State : Type) (formulaId limitMin limitSize : Nat)
    (queryCallback : QueryCallback State) (state : State) : Option (State × Int) :=
  let formulaInfos := self.mData formulaId
  if formulaInfos.length ≤ limitMin then some (state, 0)
  else passOn queryCallback limitSize (formulaInfos.drop limitMin) state

end MemFormulaDb

/-- `MemCrawlDb`. -/
structure MemCrawlDb where
  mData : List (CrawlId × Str)
  mNextCrawlId : CrawlId

namespace MemCrawlDb

/-- The constructor. -/
def empty : MemCrawlDb := ⟨[], crawlIdNull⟩

/-- `putData`: it throws when the 32 bits of the counter have come round to an id in use. -/
def putData (self : MemCrawlDb) (crawlData : Str) : Option (MemCrawlDb × CrawlId) :=
  let crawlId := (self.mNextCrawlId + 1) % 2 ^ 32
  if (self.mData.lookup crawlId).isSome then none
  else some (⟨self.mData ++ [(crawlId, crawlData)], crawlId⟩, crawlId)

/-- `getData`: it throws when the id is not known. -/
def getData (self : MemCrawlDb) (crawlId : CrawlId) : Option Str := self.mData.lookup crawlId

end MemCrawlDb

/-! ### What a query gives -/

/-- A callback that always stores one item: the loop stores a slice. -/
theorem MemFormulaDb.passOn_store {Item : Type} {callback : QueryCallback (List Item)}
    {item : FormulaInfo → Item} (infos : List FormulaInfo)
    (stores : ∀ info ∈ infos, ∀ items,
      callback items info.crawlId info.formulaPath = some (items ++ [item info], 0)) :
    ∀ limitSize items, passOn callback limitSize infos items =
      some (items ++ (infos.take limitSize).map item, 0) := by
  induction infos with
  | nil => intro limitSize items; cases limitSize <;> simp [passOn]
  | cons info rest ih =>
    intro limitSize items
    cases limitSize with
    | zero => simp [passOn]
    | succ limitSize =>
      have later := ih (fun other among => stores other (List.mem_cons_of_mem _ among)) limitSize
        (items ++ [item info])
      rw [passOn, stores info List.mem_cons_self items]
      simpa using later

/-- **A query of the database in memory stores a slice**, in the order of insertion. -/
theorem MemFormulaDb.queryFormula_store {Item : Type} (self : MemFormulaDb)
    {callback : QueryCallback (List Item)} {item : FormulaInfo → Item} (formulaId limitMin limitSize : Nat)
    (stores : ∀ info ∈ self.mData formulaId, ∀ items,
      callback items info.crawlId info.formulaPath = some (items ++ [item info], 0)) (items : List Item) :
    self.queryFormula (List Item) formulaId limitMin limitSize callback items =
      some (items ++ (((self.mData formulaId).drop limitMin).take limitSize).map item, 0) := by
  simp only [queryFormula]
  split
  · rename_i beyond
    rw [List.drop_eq_nil_of_le beyond]
    simp
  · exact passOn_store _ (fun info among => stores info (List.mem_of_mem_drop among)) limitSize items

end MathWebSearch
