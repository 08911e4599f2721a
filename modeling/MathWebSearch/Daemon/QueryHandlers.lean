/-
**The query handlers of the daemon** (`HarvestQueryHandler`, `IndexQueryHandler`).

Both encode the first tree of a query and search for it. `getResult` takes the numbers of the query as
`unsigned int`. The experimental engine hands its leaves one by one to `result_callback`.

* `resultCallback_total`, `resultCallback_answers` — what a run of callbacks adds up to.
* `resultCallback_page_iff` — when this is the page that `SearchContext` returns: the callback cuts the page out
  of every leaf by itself, and the total is an `int`.
* `pagingExact_iff` — for which attributes of a query the sums of `getResult` are those of the integers.
-/

import MathWebSearch.Query.Paging
import MathWebSearch.Query.Engine
import MathWebSearch.Xmlparser.ReadMwsQuery

namespace MathWebSearch

open Pages

/-- The conversion of a `size_t` to `unsigned int`. -/
def castUnsigned (value : Nat) : Nat := value % 2 ^ 32

/-- The conversion of an `int` to `unsigned int`. -/
def unsignedOfInt (value : Int) : Nat := (value % 2 ^ 32).toNat

/-- `MwsAnswset()`. -/
def MwsAnswset.empty : MwsAnswset := ⟨[], 0, [], [], []⟩

/-! ### The callback of the experimental engine -/

/-- What the callback reads of a `leaf_t`. -/
structure LeafEntry where
  numHits : Nat
  formulaId : Nat
deriving DecidableEq

/-- The leaf at an address of the image. -/
def readLeaf (handle : IndexHandle) (address : Nat) : Option LeafEntry := do
  let numHits ← indexAccessor.getHitsCount handle address
  let formulaId ← indexAccessor.getFormulaId handle address
  return ⟨numHits, formulaId⟩

/-- `result_callback`; it always returns `QUERY_CONTINUE`. The hits are added as `unsigned int` and stored as `int`. -/
def resultCallback (query : DbQuery) (mwsQuery : Query) (result : MwsAnswset) (leaf : LeafEntry) :
    Option MwsAnswset := do
  let answers ← query leaf.formulaId (castUnsigned mwsQuery.attrResultLimitMin)
    (castUnsigned mwsQuery.attrResultMaxSize)
  return { result with
    answers := result.answers ++ answers
    total := castInt (result.total + leaf.numHits) }

/-! ### The handlers -/

section Handlers

variable (D : Doubles)

/-- The query tree as `handleQuery` encodes it: the formula, what is known about its variables and ranges, and the
value `encode` returns. -/
def encodeQuery (config : EncoderConfig) (dictionary : MeaningDictionary) (token : CmmlToken) :
    EncodedFormula × ExpressionInfo D × Int :=
  let (round, rv) := (ExpressionEncoder.new dictionary).encode .query config (.root token)
    (some (⟨[], [], []⟩ : ExpressionInfo D))
  (round.encodedFormula, round.expressionInfo.getD ⟨[], [], []⟩, rv)

/-- The end of both handlers. -/
def withQvars (info : ExpressionInfo D) (result : MwsAnswset) : MwsAnswset :=
  { result with qvarNames := info.qvarNames, qvarXpaths := info.qvarXpaths }

/-- `HarvestQueryHandler`. -/
structure HarvestQueryHandler where
  meaningDictionary : MeaningDictionary
  crawlDb : MemCrawlDb
  formulaDb : MemFormulaDb
  index : TmpIndex
  encodingConfig : EncoderConfig

/-- `HarvestQueryHandler::handleQuery`. -/
def HarvestQueryHandler.handleQuery (self : HarvestQueryHandler) (fuel : Nat) (mwsQuery : Query) :
    Option MwsAnswset := do
  let token ← mwsQuery.tokens.head?
  let (encodedQuery, queryInfo, rv) := encodeQuery D self.encodingConfig self.meaningDictionary token
  let result ←
    (if rv = 0 then
      (SearchContext.new encodedQuery mwsQuery.options queryInfo.rangeBounds (some self.meaningDictionary)).getResult
        tmpIndexAccessor self.index (DbQueryManager.ofMemory self.crawlDb self.formulaDb).answers fuel
        (castUnsigned mwsQuery.attrResultLimitMin) (castUnsigned mwsQuery.attrResultMaxSize)
        (unsignedOfInt mwsQuery.attrResultTotalReqNr)
    else some MwsAnswset.empty)
  return withQvars D queryInfo result

/-- `IndexQueryHandler`, with what it uses of the loaded index. -/
structure IndexQueryHandler where
  meaningDictionary : MeaningDictionary
  indexHandle : IndexHandle
  dbQueryManager : DbQueryManager
  encoding : EncoderConfig
  useExperimentalQueryEngine : Bool

/-- `IndexQueryHandler::handleQuery`. The engine calls back with every leaf it arrives at; since the callback always
says to go on, the calls may as well be made behind the run. -/
def IndexQueryHandler.handleQuery (self : IndexQueryHandler) (fuel : Nat) (query : Query) : Option MwsAnswset := do
  let token ← query.tokens.head?
  let (encodedQuery, queryInfo, rv) := encodeQuery D self.encoding self.meaningDictionary token
  let result ←
    (if rv = 0 then
      if self.useExperimentalQueryEngine then do
        let (_, ctxt) ← (Engine.queryEngineRun self.indexHandle encodedQuery (fun _ => .queryContinue) fuel).toOption
        let leaves ← ctxt.calls.mapM (readLeaf self.indexHandle)
        leaves.foldlM (resultCallback self.dbQueryManager.answers query) MwsAnswset.empty
      else
        (SearchContext.new encodedQuery query.options queryInfo.rangeBounds (some self.meaningDictionary)).getResult
          indexAccessor self.indexHandle self.dbQueryManager.answers fuel (castUnsigned query.attrResultLimitMin)
          (castUnsigned query.attrResultMaxSize) (unsignedOfInt query.attrResultTotalReqNr)
    else some MwsAnswset.empty)
  return withQvars D queryInfo result

end Handlers

/-! ### Paging by the callback -/

section Callback

variable {query : DbQuery} {records : Nat → List Answer} {mwsQuery : Query}

/-- **A run of callbacks**: the same positions of every leaf, and a total that wraps round. -/
theorem foldlM_resultCallback (slices : query.Slices records) (leaves : List LeafEntry) :
    ∀ {result : MwsAnswset} {sum : Int}, result.total = castInt sum →
      ∃ result', leaves.foldlM (resultCallback query mwsQuery) result = some result' ∧
        result'.answers = result.answers ++ perBlock (castUnsigned mwsQuery.attrResultLimitMin)
          (castUnsigned mwsQuery.attrResultMaxSize) (leaves.map fun leaf => records leaf.formulaId) ∧
        result'.total = castInt (sum + (leaves.map LeafEntry.numHits).sum) := by
  induction leaves with
  | nil =>
    intro result sum counted
    exact ⟨result, rfl, by simp [perBlock], by simpa using counted⟩
  | cons leaf rest ih =>
    intro result sum counted
    have next : castInt (result.total + leaf.numHits) = castInt (sum + leaf.numHits) := by
      rw [counted, castInt_add_castInt]
    obtain ⟨result', run, answers, total⟩ := @ih { result with
      answers := result.answers ++ ((records leaf.formulaId).drop (castUnsigned mwsQuery.attrResultLimitMin)).take
        (castUnsigned mwsQuery.attrResultMaxSize)
      total := castInt (result.total + leaf.numHits) } (sum + leaf.numHits) next
    refine ⟨result', ?_, ?_, ?_⟩
    · rw [List.foldlM_cons, resultCallback, slices]
      exact run
    · rw [answers]
      simp [perBlock]
    · rw [total]
      simp [Int.add_assoc]

/-- A result that is the requested page of the leaves' records, with the number of all hits. -/
def ReturnsPage (records : Nat → List Answer) (mwsQuery : Query) (leaves : List LeafEntry) (result : MwsAnswset) :
    Prop :=
  result.answers = positions (leaves.flatMap fun leaf => records leaf.formulaId)
      (castUnsigned mwsQuery.attrResultLimitMin)
      (castUnsigned mwsQuery.attrResultLimitMin + castUnsigned mwsQuery.attrResultMaxSize) ∧
    result.answers.length ≤ castUnsigned mwsQuery.attrResultMaxSize ∧
    result.total = (leaves.map LeafEntry.numHits).sum

/-- The hit counts for which paging every leaf by itself is paging all of them: they are an `int`, and of the leaves
with hits there is at most one, or all of them are on the page or before it, or the page is empty or lies in the
first of them and the others have no more hits than come before the page. -/
def PagedAlike (mwsQuery : Query) (leaves : List LeafEntry) : Prop :=
  (leaves.map LeafEntry.numHits).sum < 2 ^ 31 ∧
    Serves (castUnsigned mwsQuery.attrResultLimitMin) (castUnsigned mwsQuery.attrResultMaxSize)
      ((leaves.map LeafEntry.numHits).filter (0 < ·))

/-- **Paging of the experimental engine.** For every run of callbacks with a database that holds as many records for
a leaf as it has hits: the result is the requested page if the hit counts are paged alike, and only then when
records at different positions are different. -/
theorem resultCallback_page_iff (slices : query.Slices records) (leaves : List LeafEntry)
    (held : ∀ leaf ∈ leaves, (records leaf.formulaId).length = leaf.numHits) :
    ∃ result, leaves.foldlM (resultCallback query mwsQuery) MwsAnswset.empty = some result ∧
      (PagedAlike mwsQuery leaves → ReturnsPage records mwsQuery leaves result) ∧
      (Apart (leaves.map fun leaf => records leaf.formulaId) →
        (ReturnsPage records mwsQuery leaves result ↔ PagedAlike mwsQuery leaves)) := by
  obtain ⟨result, run, answers, total⟩ := @foldlM_resultCallback query records mwsQuery slices leaves
    MwsAnswset.empty 0 (by decide)
  rw [MwsAnswset.empty, List.nil_append] at answers
  rw [Int.zero_add] at total
  have counts : leaves.map LeafEntry.numHits = (leaves.map fun leaf => records leaf.formulaId).map List.length := by
    rw [List.map_map]
    exact List.map_congr_left fun leaf among => (held leaf among).symm
  have page : positions (leaves.flatMap fun leaf => records leaf.formulaId)
      (castUnsigned mwsQuery.attrResultLimitMin)
      (castUnsigned mwsQuery.attrResultLimitMin + castUnsigned mwsQuery.attrResultMaxSize) =
      (((leaves.map fun leaf => records leaf.formulaId).flatten.drop
        (castUnsigned mwsQuery.attrResultLimitMin)).take (castUnsigned mwsQuery.attrResultMaxSize)) := by
    rw [positions, List.drop_take, Nat.add_sub_cancel_left, List.flatMap_def]
  have enough : PagedAlike mwsQuery leaves → ReturnsPage records mwsQuery leaves result := by
    rintro ⟨small, serves⟩
    rw [counts] at serves
    have same := answers.trans (perBlock_eq_of_filter serves)
    refine ⟨same.trans page.symm, ?_, total.trans ((castInt_natCast_iff _).mpr small)⟩
    rw [same, List.length_take]
    exact min_le_left _ _
  refine ⟨result, run, enough, fun apart => ⟨?_, enough⟩⟩
  rintro ⟨same, _, counted⟩
  refine ⟨(castInt_natCast_iff _).mp (total.symm.trans counted), ?_⟩
  rw [counts]
  exact serves_of_perBlock_eq apart (answers.symm.trans (same.trans page))

/-- One answer for each of two formulas. -/
def sampleRecords : Nat → List Answer
  | 1 => [⟨[], ['a'], ['/', '*', '[', '1', ']']⟩]
  | 2 => [⟨[], ['b'], ['/', '*', '[', '1', ']']⟩]
  | _ => []

/-- A query that asks for one answer. -/
def oneAnswer : Query := { Query.new ⟨.mwsXml, 'A'⟩ with attrResultMaxSize := 1 }

/-- The database of `sampleRecords`. -/
def sampleDb : DbQuery := fun formulaId offset size => some (((sampleRecords formulaId).drop offset).take size)

/-- A single leaf: the page is returned. -/
theorem resultCallback_oneLeaf : ∃ result, [⟨1, 1⟩].foldlM (resultCallback sampleDb oneAnswer) MwsAnswset.empty =
    some result ∧ ReturnsPage sampleRecords oneAnswer [⟨1, 1⟩] result := by
  obtain ⟨result, run, enough, _⟩ := @resultCallback_page_iff sampleDb sampleRecords oneAnswer
    (fun _ _ _ => rfl) [⟨1, 1⟩] (by decide)
  exact ⟨result, run, enough ⟨by decide, .inr (.inr (.inr ⟨1, [], by decide, .inl rfl⟩))⟩⟩

/-- Two leaves: one answer is asked for and two are returned. -/
theorem resultCallback_twoLeaves : ∃ result,
    [⟨1, 1⟩, ⟨1, 2⟩].foldlM (resultCallback sampleDb oneAnswer) MwsAnswset.empty = some result ∧
      (∀ leaf ∈ [LeafEntry.mk 1 1, LeafEntry.mk 1 2], (sampleRecords leaf.formulaId).length = leaf.numHits) ∧
      result.answers.length = 2 ∧ ¬ ReturnsPage sampleRecords oneAnswer [⟨1, 1⟩, ⟨1, 2⟩] result := by
  refine ⟨_, rfl, by decide, by decide, ?_⟩
  rintro ⟨_, few, _⟩
  revert few
  decide

end Callback

/-! ### The arithmetic of paging -/

section Arithmetic

/-- The sums and differences of `offset`, `size` and `found` that `getResult` forms as `unsigned int` are those of the
integers: the sum of the arguments, the end of the page with the checked size, and what is left of the page at any
number of matches found before a leaf. -/
structure PagingExact (offset size maxTotal : Nat) : Prop where
  arguments : (offset + size) % 2 ^ 32 = offset + size
  pageEnd : (SearchContext.checkedSize offset size maxTotal + offset) % 2 ^ 32 =
    SearchContext.checkedSize offset size maxTotal + offset
  pageRest : ∀ found hitsCount, found < 2 ^ 32 →
    SearchContext.onPage offset (SearchContext.checkedSize offset size maxTotal) found hitsCount = true →
    offset < found →
    (((SearchContext.checkedSize offset size maxTotal + offset + 2 ^ 32 - found) % 2 ^ 32 : Nat) : Int) =
      (SearchContext.checkedSize offset size maxTotal : Int) + offset - found

theorem pagingExact_iff_lt {offset size maxTotal : Nat} :
    PagingExact offset size maxTotal ↔ offset + size < 2 ^ 32 := by
  refine ⟨fun exact => by have := exact.arguments; omega, fun fits => ?_⟩
  have below := (@SearchContext.checkedSize_le offset size maxTotal fits).1
  refine ⟨Nat.mod_eq_of_lt fits, Nat.mod_eq_of_lt (by omega), fun found hitsCount _ listed behind => ?_⟩
  have page := ((SearchContext.onPage_iff (by omega) found hitsCount).mp listed).1
  omega

open QueryReader EventStream

/-- What one attribute sets of the page. -/
theorem queryAttribute_page (mode : QueryMode) (result : Query) (name value : Str) :
    (queryAttribute mode result (name, value)).attrResultMaxSize =
        (if mwsqueryAttrAnswsetMaxsize = name then castSizeT (castInt (strtol value)) else result.attrResultMaxSize) ∧
      (queryAttribute mode result (name, value)).attrResultLimitMin =
        (if mwsqueryAttrAnswsetLimitmin = name then castSizeT (castInt (strtol value))
        else result.attrResultLimitMin) ∧
      (queryAttribute mode result (name, value)).attrResultTotalReqNr = result.attrResultTotalReqNr := by
  by_cases maxSize : mwsqueryAttrAnswsetMaxsize = name
  · subst maxSize
    exact ⟨rfl, rfl, rfl⟩
  by_cases limitMin : mwsqueryAttrAnswsetLimitmin = name
  · subst limitMin
    exact ⟨rfl, rfl, rfl⟩
  rw [if_neg maxSize, if_neg limitMin]
  unfold queryAttribute outputFormat
  rw [if_neg (Ne.symm maxSize), if_neg (Ne.symm limitMin)]
  split_ifs <;> exact ⟨rfl, rfl, rfl⟩

/-- The `int` an attribute is read as, and `missing` where the attribute is missing. -/
def attributeInt (attrs : List (Str × Str)) (name : Str) (missing : Int) : Int :=
  ((attrs.reverse.lookup name).map fun value => castInt (strtol value)).getD missing

/-- What all attributes set of the page. -/
theorem foldl_queryAttribute_page (mode : QueryMode) {start : Query} (total : start.attrResultTotalReqNr = 100000)
    (maxSize : start.attrResultMaxSize = 30) (limitMin : start.attrResultLimitMin = 0) (attrs : List (Str × Str)) :
    (attrs.foldl (queryAttribute mode) start).attrResultMaxSize =
        castSizeT (attributeInt attrs mwsqueryAttrAnswsetMaxsize 30) ∧
      (attrs.foldl (queryAttribute mode) start).attrResultLimitMin =
        castSizeT (attributeInt attrs mwsqueryAttrAnswsetLimitmin 0) ∧
      (attrs.foldl (queryAttribute mode) start).attrResultTotalReqNr = 100000 := by
  induction attrs using List.reverseRecOn with
  | nil => exact ⟨maxSize, limitMin, total⟩
  | append_singleton attrs entry ih =>
    obtain ⟨name, value⟩ := entry
    have last : ∀ wanted missing, attributeInt (attrs ++ [(name, value)]) wanted missing =
        if wanted = name then castInt (strtol value) else attributeInt attrs wanted missing := by
      intro wanted missing
      rw [attributeInt, List.reverse_append, List.reverse_singleton, List.singleton_append, List.lookup_cons]
      by_cases here : wanted = name
      · rw [if_pos here, beq_iff_eq.mpr here]
        rfl
      · rw [if_neg here, beq_eq_false_iff_ne.mpr here]
        rfl
    obtain ⟨setMaxSize, setLimitMin, setTotal⟩ :=
      queryAttribute_page mode (attrs.foldl (queryAttribute mode) start) name value
    rw [List.foldl_append, List.foldl_cons, List.foldl_nil, setMaxSize, setLimitMin, setTotal, last, last, ih.1, ih.2.1]
    refine ⟨?_, ?_, ih.2.2⟩ <;> split_ifs <;> rfl

/-- An `int` on its way through `size_t` to `unsigned int`. -/
theorem castUnsigned_castSizeT (value : Int) (low : -2 ^ 31 ≤ value) (high : value < 2 ^ 31) :
    (castUnsigned (castSizeT value) : Int) = if 0 ≤ value then value else 2 ^ 32 + value := by
  unfold castUnsigned castSizeT
  split_ifs <;> omega

theorem attributeInt_range (attrs : List (Str × Str)) (name : Str) {missing : Int} (low : -2 ^ 31 ≤ missing)
    (high : missing < 2 ^ 31) :
    -2 ^ 31 ≤ attributeInt attrs name missing ∧ attributeInt attrs name missing < 2 ^ 31 := by
  unfold attributeInt
  cases attrs.reverse.lookup name with
  | none => exact ⟨low, high⟩
  | some value =>
    rw [Option.map_some, Option.getD_some, castInt, Int.bmod_def]
    split_ifs <;> omega

/-- **Paging arithmetic.** For every query document: the sums of `getResult` are those of the integers if and only if
the attributes `answsize` and `limitmin` are read as numbers of which none is negative, or one of them is and
outweighs the other. -/
theorem pagingExact_iff (memory : QueryMemory) (mode : QueryMode) {attrs : List (Str × Str)} {children : List XmlNode}
    {events : List XmlEvent} (delivered : Delivered [.element mwsqueryMainName attrs children] events)
    (fine : .error ∉ events) :
    ∃ query, readMwsQuery memory mode events = some query ∧
      (PagingExact (castUnsigned query.attrResultLimitMin) (castUnsigned query.attrResultMaxSize)
          (unsignedOfInt query.attrResultTotalReqNr) ↔
        (0 ≤ attributeInt attrs mwsqueryAttrAnswsetMaxsize 30 ∧ 0 ≤ attributeInt attrs mwsqueryAttrAnswsetLimitmin 0) ∨
          ((0 ≤ attributeInt attrs mwsqueryAttrAnswsetMaxsize 30 ∨
              0 ≤ attributeInt attrs mwsqueryAttrAnswsetLimitmin 0) ∧
            attributeInt attrs mwsqueryAttrAnswsetMaxsize 30 + attributeInt attrs mwsqueryAttrAnswsetLimitmin 0 < 0)) := by
  obtain ⟨query, read, _, settings⟩ := readMwsQuery_main memory mode delivered fine
  obtain ⟨maxSize, limitMin, _⟩ := @foldl_queryAttribute_page mode (init memory mode).result rfl rfl rfl attrs
  refine ⟨query, read, ?_⟩
  rw [SameSettings] at settings
  rw [← settings] at maxSize limitMin
  have sizeRange := @attributeInt_range attrs mwsqueryAttrAnswsetMaxsize 30 (by decide) (by decide)
  have offsetRange := @attributeInt_range attrs mwsqueryAttrAnswsetLimitmin 0 (by decide) (by decide)
  have size := castUnsigned_castSizeT _ sizeRange.1 sizeRange.2
  have offset := castUnsigned_castSizeT _ offsetRange.1 offsetRange.2
  rw [pagingExact_iff_lt, limitMin, maxSize]
  split_ifs at size offset <;> omega

/-- The query of `sampleQueryEvents` asks for five answers. -/
theorem pagingExact_sampleQuery : ∃ query, readMwsQuery ⟨.mwsXml, 'A'⟩ .queryMws sampleQueryEvents = some query ∧
    PagingExact (castUnsigned query.attrResultLimitMin) (castUnsigned query.attrResultMaxSize)
      (unsignedOfInt query.attrResultTotalReqNr) := by
  have text : Delivered [.text ['a', ' ', 'b']] [.characters ['a', ' '], .characters ['b']] :=
    @Delivered.text Char [['a', ' '], ['b']] _ _ (by simp) .nil
  have expr := Delivered.element mwsqueryExprName [] (Delivered.element CmmlToken.qvarTag [] text .nil) .nil
  have delivered : Delivered [.element mwsqueryMainName [(mwsqueryAttrAnswsetMaxsize, ['5'])] sampleQueryChildren]
    sampleQueryEvents := Delivered.element mwsqueryMainName [(mwsqueryAttrAnswsetMaxsize, ['5'])] expr .nil
  obtain ⟨query, read, exact⟩ := pagingExact_iff ⟨.mwsXml, 'A'⟩ .queryMws delivered (by simp [sampleQueryEvents])
  exact ⟨query, read, exact.mpr (.inl (by decide))⟩

/-- `limitmin="-1"` with the default size: the sum of the arguments wraps round to 29. -/
theorem pagingExact_negativeLimitmin : ∃ query, readMwsQuery ⟨.mwsXml, 'A'⟩ .queryMws
    [.startElement mwsqueryMainName [(mwsqueryAttrAnswsetLimitmin, ['-', '1'])], .startElement mwsqueryExprName [],
      .startElement CmmlToken.qvarTag [], .endElement CmmlToken.qvarTag, .endElement mwsqueryExprName,
      .endElement mwsqueryMainName] = some query ∧
    (castUnsigned query.attrResultLimitMin + castUnsigned query.attrResultMaxSize) % 2 ^ 32 = 29 ∧
    ¬ PagingExact (castUnsigned query.attrResultLimitMin) (castUnsigned query.attrResultMaxSize)
      (unsignedOfInt query.attrResultTotalReqNr) := by
  refine ⟨_, rfl, by decide, fun exact => ?_⟩
  have sum := exact.arguments
  revert sum
  decide

end Arithmetic

end MathWebSearch
