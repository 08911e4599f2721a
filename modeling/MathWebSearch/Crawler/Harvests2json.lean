/-
**Documents with the ids of their formulas** (`crawler/harvests2json.cpp`).

A harvest is read with a loaded index: every subexpression that can be encoded is searched for, and the first id that is
found is noted for the document of the expression. Taking the first of no ids, and following the null pointer of a
document that is not there, is undefined behaviour (`none`). The counter of documents stays below `2 ^ 32`.

* `recorder` — the reader with a processor that only numbers the documents: what the harvest asks for.
* `processExpression_spec`, `Tracking.run` — when an expression and when a harvest goes through, and what it adds.
* `harvests2json_handles` — **when a harvest is handled**: every expression with a subexpression that can be encoded has
  a document, and all of these subexpressions are in the index and have no variables and ranges.
* `harvests2json_orphan` — an expression without a document.
-/

import MathWebSearch.Index.HoleEncodings
import MathWebSearch.Query.FormulaSearch

namespace MathWebSearch

open CmmlToken PrefixCode TmpIndexNode IndexBuilder SearchContext HarvestReader IdDictionary

namespace Harvests2json

/-! ### The code -/

/-- `Hit`. -/
structure Hit where
  uri : Str
  xpath : Str
deriving DecidableEq

/-- `ParseResult`; `pushed` is everything that is put into the vectors of the map. -/
structure ParseResult where
  data : Str
  pushed : List (Nat × Hit)

/-- `idMappings`. -/
def ParseResult.idMappings (self : ParseResult) (fmId : Nat) : List Hit :=
  (self.pushed.filter fun entry => entry.1 = fmId).map Prod.snd

/-- More hits. -/
def ParseResult.push (self : ParseResult) (hits : List (Nat × Hit)) : ParseResult :=
  { self with pushed := self.pushed ++ hits }

/-- `HarvestParser`; the documents are those of the ids from 1 to `_idCounter`. -/
structure HarvestParser where
  meaningDictionary : MeaningDictionary
  documents : List ParseResult

/-- Hits for the document of an id. -/
def pushAt (crawlId : CrawlId) (hits : List (Nat × Hit)) (documents : List ParseResult) : List ParseResult :=
  documents.mapIdx fun number document => if number + 1 = crawlId then document.push hits else document

/-- `documents[crawlId]->idMappings[fmId].push_back(hit)`; the pointer of a new entry is null. -/
def pushHit (crawlId : CrawlId) (fmId : Nat) (hit : Hit) (documents : List ParseResult) : Option (List ParseResult) :=
  if 0 < crawlId ∧ crawlId ≤ documents.length then some (pushAt crawlId [(fmId, hit)] documents) else none

/-- The variables of the callback of `processExpression`. -/
structure Parsing where
  encoder : ExpressionEncoder
  documents : List ParseResult
  numSubExpressions : Nat

section Functions

variable (handle : IndexHandle) (indexingOptions : EncoderConfig) (fuel : Nat)

/-- The search for a formula; no hits are asked for, so that the null pointer to the database is not used. -/
def getResult (encodedFormula : EncodedFormula) : Option MwsAnswset :=
  (forFormula .whole encodedFormula).getResult indexAccessor handle (fun _ _ _ => none) fuel 0 1 1

/-- A formula that is encoded, from the search on. -/
def addFormula (exprUri : Str) (crawlId : CrawlId) (state : List ParseResult × Nat) (entry : Located × EncodedFormula) :
    Option (List ParseResult × Nat) := do
  let result ← getResult handle fuel entry.2
  let fmId ← result.ids.head?
  let documents ← pushHit crawlId fmId ⟨exprUri, entry.1.getXpath⟩ state.1
  return (documents, (((state.2 : Int) + result.total) % 2 ^ 32).toNat)

/-- The callback for a subexpression. -/
def processSubexpression (exprUri : Str) (crawlId : CrawlId) (state : Parsing) (subexpression : Located) :
    Option Parsing :=
  let (encoder, encodedFormula, ret) := encodeSubexpression indexingOptions state.encoder subexpression
  -- a formula that could not be encoded is skipped
  if ret ≠ 0 then some { state with encoder }
  else do
    let (documents, numSubExpressions) ←
      addFormula handle fuel exprUri crawlId (state.documents, state.numSubExpressions) (subexpression, encodedFormula)
    return { encoder, documents, numSubExpressions }

/-- `processExpression`. -/
def processExpression (self : HarvestParser) (expression : CmmlToken) (exprUri : Str) (crawlId : CrawlId) :
    Option (HarvestParser × Int) := do
  let state ← (foreachSubexpression expression).foldlM (processSubexpression handle indexingOptions fuel exprUri crawlId)
    ⟨.new self.meaningDictionary, self.documents, 0⟩
  return (⟨state.encoder.meaningDictionary, state.documents⟩, Bytes.toInt32 state.numSubExpressions)

/-- `processData`. -/
def processData (self : HarvestParser) (data : Str) : HarvestParser × CrawlId :=
  ({ self with documents := self.documents ++ [⟨data, []⟩] }, self.documents.length + 1)

/-- `HarvestParser` as a processor; its state is lost in undefined behaviour. -/
def harvestParser : HarvestProcessor (Option HarvestParser) where
  processExpression state token exprUri crawlId :=
    match state.bind fun self => processExpression handle indexingOptions fuel self token exprUri crawlId with
    | some (self, number) => (some self, number)
    | none => (none, 0)
  processData state data :=
    match state.map fun self => processData self data with
    | some (self, crawlId) => (some self, crawlId)
    | none => (none, crawlIdNull)

/-- `parseMwsHarvestFromFd`: the documents, by their ids. -/
def parseMwsHarvestFromFd (W : TextWriter) (meaningDictionary : MeaningDictionary) (events : List XmlEvent) :
    Option (List ParseResult) := do
  let data : MwsHarvestSaxUserData W (Option HarvestParser) ←
    processHarvest (harvestParser handle indexingOptions fuel) true events (some ⟨meaningDictionary, []⟩)
  let self ← data.harvestProcessor
  return self.documents

end Functions

/-! ### What a harvest asks for -/

/-- **A processor that numbers the documents**, and does nothing else: its state is the list of their texts. -/
def recorder : HarvestProcessor (List Str) where
  processExpression texts _ _ _ := (texts, 0)
  processData texts data := (texts ++ [data], texts.length + 1)

/-- The hits of an expression, if `ids` says which formulas are found. -/
def pushesOf (ids : EncodedFormula → Option Nat) (call : Call) : List (Nat × Hit) :=
  call.encodings.filterMap fun entry => (ids entry.2).map fun fmId => (fmId, ⟨call.xmlId, entry.1.getXpath⟩)

/-- The hits of all expressions of a document. -/
def hitsOf (ids : EncodedFormula → Option Nat) (calls : List Call) (crawlId : CrawlId) : List (Nat × Hit) :=
  (calls.filter fun call => call.crawlId = crawlId).flatMap (pushesOf ids)

/-- **The documents with their hits.** -/
def documentsOf (ids : EncodedFormula → Option Nat) (texts : List Str) (calls : List Call) : List ParseResult :=
  texts.mapIdx fun number text => ⟨text, hitsOf ids calls (number + 1)⟩

/-! ### Hits -/

theorem length_pushAt (crawlId : CrawlId) (hits : List (Nat × Hit)) (documents : List ParseResult) :
    (pushAt crawlId hits documents).length = documents.length := List.length_mapIdx

theorem pushAt_nil (crawlId : CrawlId) (documents : List ParseResult) : pushAt crawlId [] documents = documents := by
  unfold pushAt
  ext number document
  rw [List.getElem?_mapIdx]
  cases documents[number]? with
  | none => rfl
  | some old =>
    rw [Option.map_some, ParseResult.push, List.append_nil, ite_self]

theorem pushAt_append (crawlId : CrawlId) (first second : List (Nat × Hit)) (documents : List ParseResult) :
    pushAt crawlId (first ++ second) documents = pushAt crawlId second (pushAt crawlId first documents) := by
  unfold pushAt
  ext number document
  rw [List.getElem?_mapIdx, List.getElem?_mapIdx, List.getElem?_mapIdx]
  cases documents[number]? with
  | none => rfl
  | some old =>
    simp only [Option.map_some]
    split_ifs
    · rw [ParseResult.push, ParseResult.push, ParseResult.push, List.append_assoc]
    · rfl

variable {ids : EncodedFormula → Option Nat}

theorem hitsOf_concat (calls : List Call) (call : Call) (crawlId : CrawlId) :
    hitsOf ids (calls ++ [call]) crawlId =
      hitsOf ids calls crawlId ++ if call.crawlId = crawlId then pushesOf ids call else [] := by
  rw [hitsOf, List.filter_append, List.flatMap_append, List.filter_singleton, ← hitsOf]
  by_cases same : call.crawlId = crawlId
  · rw [if_pos same, decide_eq_true same, cond_true, List.flatMap_singleton]
  · rw [if_neg same, decide_eq_false same, cond_false, List.flatMap_nil]

/-- One more expression. -/
theorem documentsOf_concat (texts : List Str) (calls : List Call) (call : Call) :
    documentsOf ids texts (calls ++ [call]) = pushAt call.crawlId (pushesOf ids call) (documentsOf ids texts calls) := by
  unfold documentsOf pushAt
  ext number document
  rw [List.getElem?_mapIdx, List.getElem?_mapIdx, List.getElem?_mapIdx, Option.map_map]
  refine Eq.congr (congrArg₂ _ (funext fun text => ?_) rfl) rfl
  rw [hitsOf_concat]
  by_cases same : number + 1 = call.crawlId
  · rw [Function.comp_apply, if_pos same, if_pos same.symm, ParseResult.push]
  · rw [Function.comp_apply, if_neg same, if_neg (Ne.symm same), List.append_nil]

/-- One more document, which no expression belongs to yet. -/
theorem documentsOf_text (texts : List Str) (text : Str) (calls : List Call)
    (earlier : ∀ call ∈ calls, call.crawlId ≤ texts.length) :
    documentsOf ids (texts ++ [text]) calls = documentsOf ids texts calls ++ [⟨text, []⟩] := by
  have none : hitsOf ids calls (texts.length + 1) = [] := by
    rw [hitsOf, List.filter_eq_nil_iff.mpr, List.flatMap_nil]
    intro call member same
    have bound := earlier call member
    rw [of_decide_eq_true same] at bound
    exact Nat.not_succ_le_self _ bound
  rw [documentsOf, List.mapIdx_append, List.mapIdx_singleton, Nat.zero_add, none]
  rfl

/-! ### One expression -/

section Expression

variable {handle : IndexHandle} {config : EncoderConfig} {fuel : Nat}

/-- What the search for a formula finds. -/
def foundId (handle : IndexHandle) (fuel : Nat) (formula : EncodedFormula) : Option Nat :=
  (getResult handle fuel formula).bind fun result => result.ids.head?

/-- An expression with a document among so many, all of whose formulas are found. -/
def Fine (ids : EncodedFormula → Option Nat) (count : Nat) (call : Call) : Prop :=
  ∀ entry ∈ call.encodings, (0 < call.crawlId ∧ call.crawlId ≤ count) ∧ (ids entry.2).isSome

/-- The loop over the subexpressions: encode all of them, with the searches in between. -/
theorem foldlM_processSubexpression (exprUri : Str) (crawlId : CrawlId) (tokens : List Located) :
    ∀ (encoder : ExpressionEncoder) (documents : List ParseResult) (number : Nat),
      tokens.foldlM (processSubexpression handle config fuel exprUri crawlId) ⟨encoder, documents, number⟩ =
        ((encodingsFrom config encoder tokens).foldlM (addFormula handle fuel exprUri crawlId) (documents, number)).map
          fun state => ⟨encoderAfter config encoder tokens, state.1, state.2⟩ := by
  induction tokens with
  | nil => exact fun _ _ _ => rfl
  | cons token rest ih =>
    intro encoder documents number
    rw [List.foldlM_cons, encodingsFrom]
    generalize encodedEq : encodeSubexpression config encoder token = encoded
    have after : encoderAfter config encoder (token :: rest) = encoderAfter config encoded.1 rest := by
      rw [encoderAfter, List.foldl_cons, encodedEq]
      rfl
    rw [after, processSubexpression, encodedEq]
    dsimp only
    by_cases ok : encoded.2.2 = 0
    · rw [if_neg (not_not.mpr ok), if_pos ok, List.foldlM_cons]
      cases addFormula handle fuel exprUri crawlId (documents, number) (token, encoded.2.1) with
      | none => rfl
      | some state => exact ih encoded.1 state.1 state.2
    · rw [if_pos ok, if_neg ok]
      exact ih encoded.1 documents number

/-- A formula goes through if it is found and there is a document for it. -/
theorem addFormula_spec (exprUri : Str) (crawlId : CrawlId) (documents : List ParseResult) (number : Nat)
    (entry : Located × EncodedFormula) :
    (∀ state, addFormula handle fuel exprUri crawlId (documents, number) entry = some state →
      (0 < crawlId ∧ crawlId ≤ documents.length) ∧ (foundId handle fuel entry.2).isSome) ∧
    ((0 < crawlId ∧ crawlId ≤ documents.length) → ∀ fmId, foundId handle fuel entry.2 = some fmId →
      ∃ number', addFormula handle fuel exprUri crawlId (documents, number) entry =
        some (pushAt crawlId [(fmId, ⟨exprUri, entry.1.getXpath⟩)] documents, number')) := by
  unfold addFormula foundId
  cases getResult handle fuel entry.2 with
  | none =>
    refine ⟨fun state added => ?_, fun _ fmId found => ?_⟩
    · cases added
    · cases found
  | some result =>
    simp only [Option.bind_eq_bind, Option.bind_some]
    cases result.ids.head? with
    | none =>
      refine ⟨fun state added => ?_, fun _ fmId found => ?_⟩
      · cases added
      · cases found
    | some fmId =>
      simp only [Option.bind_some]
      refine ⟨fun state added => ?_, fun there fmId' found => ?_⟩
      · unfold pushHit at added
        split_ifs at added with there
        · exact ⟨there, rfl⟩
        · cases added
      · obtain rfl := Option.some.inj found
        rw [pushHit, if_pos there]
        exact ⟨_, rfl⟩

/-- The hits of formulas, one after the other. -/
theorem foldlM_addFormula (exprUri : Str) (crawlId : CrawlId) (entries : List (Located × EncodedFormula)) :
    ∀ (documents : List ParseResult) (number : Nat),
      (∀ state, entries.foldlM (addFormula handle fuel exprUri crawlId) (documents, number) = some state →
        Fine (foundId handle fuel) documents.length ⟨exprUri, crawlId, entries⟩) ∧
      (Fine (foundId handle fuel) documents.length ⟨exprUri, crawlId, entries⟩ →
        ∃ number', entries.foldlM (addFormula handle fuel exprUri crawlId) (documents, number) =
          some (pushAt crawlId (pushesOf (foundId handle fuel) ⟨exprUri, crawlId, entries⟩) documents, number')) := by
  induction entries with
  | nil =>
    intro documents number
    refine ⟨fun _ _ entry member => absurd member List.not_mem_nil, fun _ => ⟨number, ?_⟩⟩
    rw [pushesOf, List.filterMap_nil, pushAt_nil]
    rfl
  | cons entry rest ih =>
    intro documents number
    obtain ⟨needs, adds⟩ := @addFormula_spec handle fuel exprUri crawlId documents number entry
    rw [List.foldlM_cons]
    refine ⟨fun state done => ?_, fun fine => ?_⟩
    · obtain ⟨next, added, later⟩ := Option.bind_eq_some_iff.mp done
      obtain ⟨there, found⟩ := needs next added
      obtain ⟨fmId, is⟩ := Option.isSome_iff_exists.mp found
      obtain ⟨number', added'⟩ := adds there fmId is
      obtain rfl := Option.some.inj (added'.symm.trans added)
      have restFine := (ih (pushAt crawlId [(fmId, ⟨exprUri, entry.1.getXpath⟩)] documents) number').1 state later
      rw [length_pushAt] at restFine
      exact List.forall_mem_cons.mpr ⟨⟨there, found⟩, restFine⟩
    · obtain ⟨⟨there, found⟩, restFine⟩ := List.forall_mem_cons.mp fine
      obtain ⟨fmId, is⟩ := Option.isSome_iff_exists.mp found
      obtain ⟨number', added⟩ := adds there fmId is
      have later := (ih (pushAt crawlId [(fmId, ⟨exprUri, entry.1.getXpath⟩)] documents) number').2
      rw [length_pushAt] at later
      obtain ⟨last, all⟩ := later restFine
      refine ⟨last, ?_⟩
      rw [added]
      show rest.foldlM _ _ = _
      have split : pushesOf (foundId handle fuel) ⟨exprUri, crawlId, entry :: rest⟩ =
          [(fmId, ⟨exprUri, entry.1.getXpath⟩)] ++ pushesOf (foundId handle fuel) ⟨exprUri, crawlId, rest⟩ := by
        rw [pushesOf, List.filterMap_cons, is]
        rfl
      rw [all, split, pushAt_append]

/-- **An expression goes through** if it has a document, and all of its formulas are found. -/
theorem processExpression_spec (self : HarvestParser) (input : CmmlToken × Str × CrawlId) :
    (∀ result, processExpression handle config fuel self input.1 input.2.1 input.2.2 = some result →
      Fine (foundId handle fuel) self.documents.length (callOf config self.meaningDictionary input)) ∧
    (Fine (foundId handle fuel) self.documents.length (callOf config self.meaningDictionary input) →
      ∃ number, processExpression handle config fuel self input.1 input.2.1 input.2.2 =
        some (⟨dictionaryAfter config self.meaningDictionary input.1,
          pushAt input.2.2 (pushesOf (foundId handle fuel) (callOf config self.meaningDictionary input))
            self.documents⟩, number)) := by
  obtain ⟨needs, adds⟩ := @foldlM_addFormula handle fuel input.2.1 input.2.2
    (encodings config self.meaningDictionary input.1) self.documents 0
  unfold processExpression
  rw [foldlM_processSubexpression]
  refine ⟨fun result done => ?_, fun fine => ?_⟩
  · obtain ⟨state, folded, _⟩ := Option.bind_eq_some_iff.mp done
    obtain ⟨state', folded, _⟩ := Option.map_eq_some_iff.mp folded
    exact needs state' folded
  · obtain ⟨number, folded⟩ := adds fine
    have folded : (encodingsFrom config (.new self.meaningDictionary) (foreachSubexpression input.1)).foldlM
        (addFormula handle fuel input.2.1 input.2.2) (self.documents, 0) = _ := folded
    rw [folded]
    exact ⟨_, rfl⟩

end Expression

end Harvests2json

/-! ### The reader with two processors -/

namespace HarvestReader

variable {W : TextWriter} {σ τ : Type}

/-- The reader in the same state, with another processor. -/
def withProcessor (data : MwsHarvestSaxUserData W τ) (processor : σ) (parsedExpr : Nat) : MwsHarvestSaxUserData W σ where
  state := data.state
  unknownDepth := data.unknownDepth
  localIdToCrawlIds := data.localIdToCrawlIds
  currentToken := data.currentToken
  prevState := data.prevState
  parsedExpr := parsedExpr
  harvestProcessor := processor
  stringWriter := data.stringWriter
  copyDepth := data.copyDepth
  exprUri := data.exprUri
  data := data.data
  localId := data.localId
  calls := data.calls

/-- No call of the processor. -/
structure Kept (data data' : MwsHarvestSaxUserData W τ) : Prop where
  processor : data'.harvestProcessor = data.harvestProcessor
  calls : data'.calls = data.calls
  ids : data'.localIdToCrawlIds = data.localIdToCrawlIds

/-- A call of `processExpression`. -/
structure Asked (Q : HarvestProcessor τ) (data data' : MwsHarvestSaxUserData W τ) (input : CmmlToken × Str × CrawlId) :
    Prop where
  processor : data'.harvestProcessor = (Q.processExpression data.harvestProcessor input.1 input.2.1 input.2.2).1
  calls : data'.calls = data.calls ++ [input]
  ids : data'.localIdToCrawlIds = data.localIdToCrawlIds
  known : input.2.2 = crawlIdNull ∨ ∃ entry ∈ data.localIdToCrawlIds, entry.2 = input.2.2

/-- A call of `processData`. -/
structure Given (Q : HarvestProcessor τ) (data data' : MwsHarvestSaxUserData W τ) (text : Str) : Prop where
  processor : data'.harvestProcessor = (Q.processData data.harvestProcessor text).1
  calls : data'.calls = data.calls
  ids : ∀ entry ∈ data'.localIdToCrawlIds, entry ∈ data.localIdToCrawlIds ∨
    entry.2 = (Q.processData data.harvestProcessor text).2

theorem crawlIdOfLocalId_known (data : MwsHarvestSaxUserData W τ) : crawlIdOfLocalId true data = crawlIdNull ∨
    ∃ entry ∈ data.localIdToCrawlIds, entry.2 = crawlIdOfLocalId true data := by
  unfold crawlIdOfLocalId
  cases found : data.localIdToCrawlIds.lookup data.localId with
  | none => exact Or.inl rfl
  | some crawlId =>
    obtain ⟨front, back, split, _⟩ := List.lookup_eq_some_iff.mp found
    exact Or.inr ⟨(data.localId, crawlId), split ▸ List.mem_append_right _ List.mem_cons_self, rfl⟩

/-- **One event with two processors**: the two readers do the same, and ask for the same. -/
theorem step_pair (P : HarvestProcessor σ) (Q : HarvestProcessor τ) (data : MwsHarvestSaxUserData W τ) (processor : σ)
    (parsedExpr : Nat) (event : XmlEvent) :
    (step P true (withProcessor data processor parsedExpr) event =
        (step Q true data event).map (withProcessor · processor parsedExpr) ∧
      ∀ data', step Q true data event = some data' → Kept data data') ∨
    (∃ input data' parsedExpr', step Q true data event = some data' ∧ Asked Q data data' input ∧
      step P true (withProcessor data processor parsedExpr) event = some (withProcessor data'
        (P.processExpression processor input.1 input.2.1 input.2.2).1 parsedExpr')) ∨
    (∃ text data', step Q true data event = some data' ∧ Given Q data data' text ∧
      ((P.processData processor text).2 = (Q.processData data.harvestProcessor text).2 →
        step P true (withProcessor data processor parsedExpr) event =
          some (withProcessor data' (P.processData processor text).1 parsedExpr))) := by
  have kept : ∀ {data' : MwsHarvestSaxUserData W τ}, step Q true data event = some data' → Kept data data' →
      step P true (withProcessor data processor parsedExpr) event = some (withProcessor data' processor parsedExpr) →
      step P true (withProcessor data processor parsedExpr) event =
        (step Q true data event).map (withProcessor · processor parsedExpr) ∧
        ∀ data', step Q true data event = some data' → Kept data data' := by
    intro data' done same other
    rw [done, other]
    refine ⟨rfl, fun data'' is => ?_⟩
    obtain rfl := Option.some.inj is
    exact same
  obtain ⟨state, unknownDepth, ids, currentToken, prevState, parsed, processor', writer, copyDepth, uri, copied, localId,
    calls⟩ := data
  cases event with
  | startElement name attrs =>
    refine Or.inl (kept rfl ?_ ?_)
    · unfold startElement goUnknown
      cases state <;> dsimp only <;> (try split) <;> (try split) <;> (try split) <;> exact ⟨rfl, rfl, rfl⟩
    · unfold step startElement goUnknown withProcessor
      cases state <;> dsimp only <;> (try split) <;> (try split) <;> (try split) <;> rfl
  | characters chunk =>
    refine Or.inl (kept rfl ?_ ?_)
    · unfold characters
      cases state <;> cases currentToken <;> exact ⟨rfl, rfl, rfl⟩
    · unfold step characters withProcessor
      cases state <;> cases currentToken <;> rfl
  | error => exact Or.inl (kept rfl ⟨rfl, rfl, rfl⟩ rfl)
  | endElement name =>
    cases state with
    | default =>
      refine Or.inl ⟨rfl, fun data' done => ?_⟩
      cases done
    | inMwsHarvest => exact Or.inl (kept rfl ⟨rfl, rfl, rfl⟩ rfl)
    | unknown =>
      refine Or.inl (kept rfl ?_ ?_)
      · dsimp only
        split
        · exact ⟨rfl, rfl, rfl⟩
        · exact ⟨rfl, rfl, rfl⟩
      · unfold step endElement withProcessor
        dsimp only
        split
        · rfl
        · rfl
    | inMwsExpr =>
      match currentToken with
      | [] => exact Or.inl (kept rfl ⟨rfl, rfl, rfl⟩ rfl)
      | [root] =>
        -- the end tag of an expression
        refine Or.inr (Or.inl ⟨(root.close, uri, crawlIdOfLocalId true
          (⟨.inMwsExpr, unknownDepth, ids, [root], prevState, parsed, processor', writer, copyDepth, uri, copied, localId,
            calls⟩ : MwsHarvestSaxUserData W τ)), _, _, rfl, ⟨rfl, rfl, rfl, crawlIdOfLocalId_known _⟩, rfl⟩)
      | token :: parent :: rest => exact Or.inl (kept rfl ⟨rfl, rfl, rfl⟩ rfl)
    | inMwsData =>
      by_cases closes : copyDepth - 1 = 0
      · -- the end tag of an `mws:data`
        refine Or.inr (Or.inr ⟨W.endDocument (W.endElement writer), _, if_pos closes, ⟨rfl, rfl, ?_⟩, fun same => ?_⟩)
        · intro entry member
          unfold processCopied at member
          dsimp only at member
          rw [if_pos rfl] at member
          dsimp only at member
          split_ifs at member with null
          · rcases List.mem_cons.mp member with rfl | old
            · exact Or.inr rfl
            · exact Or.inl old
          · exact Or.inl member
        · refine (if_pos closes).trans (congrArg some ?_)
          unfold processCopied withProcessor
          dsimp only
          rw [if_pos rfl, if_pos rfl]
          dsimp only
          rw [same]
      · exact Or.inl (kept (if_neg closes) ⟨rfl, rfl, rfl⟩ (if_neg closes))

end HarvestReader

namespace Harvests2json

/-! ### One harvest -/

section Harvest

theorem callsOf_append (config : EncoderConfig) (inputs more : List (CmmlToken × Str × CrawlId)) :
    ∀ dictionary : MeaningDictionary, callsOf config dictionary (inputs ++ more) =
      callsOf config dictionary inputs ++ callsOf config (dictionaryAfterAll config dictionary inputs) more := by
  induction inputs with
  | nil => exact fun _ => rfl
  | cons first rest ih =>
    intro dictionary
    rw [List.cons_append, callsOf, callsOf, ih, List.cons_append]
    rfl

theorem callsOf_concat (config : EncoderConfig) (input : CmmlToken × Str × CrawlId) (inputs : List (CmmlToken × Str × CrawlId))
    (dictionary : MeaningDictionary) : callsOf config dictionary (inputs ++ [input]) =
      callsOf config dictionary inputs ++ [callOf config (dictionaryAfterAll config dictionary inputs) input] :=
  callsOf_append config inputs [input] dictionary

theorem crawlId_of_mem_callsOf (config : EncoderConfig) (inputs : List (CmmlToken × Str × CrawlId)) :
    ∀ {dictionary : MeaningDictionary} {call : Call}, call ∈ callsOf config dictionary inputs →
      ∃ input ∈ inputs, call.crawlId = input.2.2 := by
  induction inputs with
  | nil => exact fun member => absurd member List.not_mem_nil
  | cons first rest ih =>
    intro dictionary call member
    rcases List.mem_cons.mp member with rfl | later
    · exact ⟨first, List.mem_cons_self, rfl⟩
    · obtain ⟨input, inside, same⟩ := ih later
      exact ⟨input, List.mem_cons_of_mem _ inside, same⟩

/-- The call of an expression is made by one of `callsOf`, from a dictionary that is made by `put` calls. -/
theorem mem_callsOf_concat {config : EncoderConfig} {input : CmmlToken × Str × CrawlId} {inputs : List (CmmlToken × Str × CrawlId)}
    {dictionary : MeaningDictionary} {call : Call} : call ∈ callsOf config dictionary (inputs ++ [input]) ↔
      call ∈ callsOf config dictionary inputs ∨ call = callOf config (dictionaryAfterAll config dictionary inputs) input := by
  rw [callsOf_concat, List.mem_append, List.mem_singleton]

variable {W : TextWriter} {handle : IndexHandle} {config : EncoderConfig} {fuel : Nat} {dictionary : MeaningDictionary}

/-- **The parser keeps up with the recorder**: it has the dictionary and the documents of the calls so far, all of which
are fine. -/
structure Tracking (handle : IndexHandle) (config : EncoderConfig) (fuel : Nat) (dictionary : MeaningDictionary)
    (data : MwsHarvestSaxUserData W (List Str)) (parser : HarvestParser) : Prop where
  known : parser.meaningDictionary = dictionaryAfterAll config dictionary data.calls
  documents : parser.documents =
    documentsOf (foundId handle fuel) data.harvestProcessor (callsOf config dictionary data.calls)
  fine : ∀ call ∈ callsOf config dictionary data.calls, Fine (foundId handle fuel) data.harvestProcessor.length call
  ids : ∀ entry ∈ data.localIdToCrawlIds, entry.2 ≤ data.harvestProcessor.length
  calls : ∀ input ∈ data.calls, input.2.2 ≤ data.harvestProcessor.length

/-- What is left to ask of a call: there is a document, and the formulas are found. -/
def Resolved (ids : EncodedFormula → Option Nat) (call : Call) : Prop :=
  ∀ entry ∈ call.encodings, call.crawlId ≠ crawlIdNull ∧ (ids entry.2).isSome

variable {data data' : MwsHarvestSaxUserData W (List Str)} {self : HarvestParser}

theorem Tracking.kept (tracking : Tracking handle config fuel dictionary data self) (kept : Kept data data') :
    Tracking handle config fuel dictionary data' self := by
  obtain ⟨processor, calls, ids⟩ := kept
  refine ⟨?_, ?_, ?_, ?_, ?_⟩
  · rw [calls]
    exact tracking.known
  · rw [processor, calls]
    exact tracking.documents
  · rw [processor, calls]
    exact tracking.fine
  · rw [processor, ids]
    exact tracking.ids
  · rw [processor, calls]
    exact tracking.calls

theorem Tracking.length (tracking : Tracking handle config fuel dictionary data self) :
    self.documents.length = data.harvestProcessor.length := by
  rw [tracking.documents, documentsOf, List.length_mapIdx]

/-- An expression that goes through. -/
theorem Tracking.asked (tracking : Tracking handle config fuel dictionary data self)
    {input : CmmlToken × Str × CrawlId} (asked : Asked recorder data data' input)
    (fine : Fine (foundId handle fuel) data.harvestProcessor.length
      (callOf config (dictionaryAfterAll config dictionary data.calls) input)) :
    ∃ self' number, processExpression handle config fuel self input.1 input.2.1 input.2.2 = some (self', number) ∧
      Tracking handle config fuel dictionary data' self' := by
  obtain ⟨processor, calls, ids, known⟩ := asked
  have processor : data'.harvestProcessor = data.harvestProcessor := processor
  obtain ⟨number, done⟩ := (@processExpression_spec handle config fuel self input).2
    (by rw [tracking.length, tracking.known]; exact fine)
  have bound : input.2.2 ≤ data.harvestProcessor.length := by
    rcases known with null | ⟨entry, member, same⟩
    · rw [null]
      exact Nat.zero_le _
    · rw [← same]
      exact tracking.ids entry member
  refine ⟨_, number, done, ?_, ?_, ?_, ?_, ?_⟩
  · show dictionaryAfter config self.meaningDictionary input.1 = _
    rw [calls, dictionaryAfterAll, List.foldl_append, tracking.known]
    rfl
  · rw [processor, calls, callsOf_concat, documentsOf_concat, ← tracking.documents, tracking.known]
    rfl
  · rw [processor, calls]
    intro call member
    rcases mem_callsOf_concat.mp member with old | rfl
    · exact tracking.fine call old
    · exact fine
  · rw [processor, ids]
    exact tracking.ids
  · rw [processor, calls]
    intro other member
    rcases List.mem_append.mp member with old | new
    · exact tracking.calls other old
    · rw [List.mem_singleton.mp new]
      exact bound

/-- A document. -/
theorem Tracking.given (tracking : Tracking handle config fuel dictionary data self) {text : Str}
    (given : Given recorder data data' text) :
    Tracking handle config fuel dictionary data' (processData self text).1 := by
  obtain ⟨processor, calls, ids⟩ := given
  have processor : data'.harvestProcessor = data.harvestProcessor ++ [text] := processor
  have grows : data'.harvestProcessor.length = data.harvestProcessor.length + 1 := by
    rw [processor, List.length_append, List.length_singleton]
  refine ⟨?_, ?_, ?_, ?_, ?_⟩
  · rw [calls]
    exact tracking.known
  · rw [processor, calls, documentsOf_text, ← tracking.documents]
    · rfl
    · intro call member
      obtain ⟨input, inside, same⟩ := crawlId_of_mem_callsOf config data.calls member
      rw [same]
      exact tracking.calls input inside
  · rw [calls, grows]
    intro call member entry inside
    obtain ⟨⟨positive, bound⟩, found⟩ := tracking.fine call member entry inside
    exact ⟨⟨positive, Nat.le_succ_of_le bound⟩, found⟩
  · rw [grows]
    intro entry member
    rcases ids entry member with old | same
    · exact Nat.le_succ_of_le (tracking.ids entry old)
    · exact same.le
  · rw [grows, calls]
    exact fun input member => Nat.le_succ_of_le (tracking.calls input member)

/-- **One event.** What the parser survives, the recorder does, too; and the parser survives what is resolved. -/
theorem Tracking.step (tracking : Tracking handle config fuel dictionary data self) (parsedExpr : Nat) (event : XmlEvent) :
    (∀ final, HarvestReader.step (harvestParser handle config fuel) true (withProcessor data (some self) parsedExpr)
        event = some final → final.harvestProcessor = none ∨
      ∃ data' self' parsedExpr', HarvestReader.step recorder true data event = some data' ∧
        final = withProcessor data' (some self') parsedExpr' ∧ Tracking handle config fuel dictionary data' self') ∧
    (∀ data', HarvestReader.step recorder true data event = some data' →
      (∀ call ∈ callsOf config dictionary data'.calls, Resolved (foundId handle fuel) call) →
      ∃ self' parsedExpr', HarvestReader.step (harvestParser handle config fuel) true
          (withProcessor data (some self) parsedExpr) event = some (withProcessor data' (some self') parsedExpr') ∧
        Tracking handle config fuel dictionary data' self') := by
  rcases step_pair (harvestParser handle config fuel) recorder data (some self) parsedExpr event with
    ⟨same, kept⟩ | ⟨input, data', parsedExpr', done, asked, other⟩ | ⟨text, data', done, given, other⟩
  · rw [same]
    refine ⟨fun final is => Or.inr ?_, fun data' is _ => ?_⟩
    · obtain ⟨data', stepped, rfl⟩ := Option.map_eq_some_iff.mp is
      exact ⟨data', self, parsedExpr, stepped, rfl, tracking.kept (kept data' stepped)⟩
    · exact ⟨self, parsedExpr, by rw [is]; rfl, tracking.kept (kept data' is)⟩
  · have processed : ∀ result, processExpression handle config fuel self input.1 input.2.1 input.2.2 = result →
        ((harvestParser handle config fuel).processExpression (some self) input.1 input.2.1 input.2.2).1 =
          result.map Prod.fst := by
      intro result is
      show Prod.fst (match processExpression handle config fuel self input.1 input.2.1 input.2.2 with
        | some (self, number) => (some self, number)
        | none => (none, 0)) = _
      rw [is]
      cases result <;> rfl
    rw [other]
    by_cases fine : Fine (foundId handle fuel) data.harvestProcessor.length
      (callOf config (dictionaryAfterAll config dictionary data.calls) input)
    · obtain ⟨self', number, went, next⟩ := tracking.asked asked fine
      rw [processed _ went]
      refine ⟨fun final is => Or.inr ⟨data', self', parsedExpr', done, (Option.some.inj is).symm, next⟩,
        fun data'' is _ => ?_⟩
      obtain rfl := Option.some.inj (done.symm.trans is)
      exact ⟨self', parsedExpr', rfl, next⟩
    · have stops : processExpression handle config fuel self input.1 input.2.1 input.2.2 = none := by
        by_contra goes
        obtain ⟨result, went⟩ := Option.ne_none_iff_exists'.mp goes
        have needs := (@processExpression_spec handle config fuel self input).1 result went
        rw [tracking.length, tracking.known] at needs
        exact fine needs
      rw [processed _ stops]
      refine ⟨fun final is => Or.inl ?_, fun data'' is resolved => absurd ?_ fine⟩
      · rw [← Option.some.inj is]
        rfl
      · obtain rfl := Option.some.inj (done.symm.trans is)
        intro entry member
        have all := resolved (callOf config (dictionaryAfterAll config dictionary data.calls) input)
          (by rw [asked.calls, mem_callsOf_concat]; exact Or.inr rfl)
        obtain ⟨notNull, found⟩ := all entry member
        refine ⟨⟨Nat.pos_of_ne_zero notNull, ?_⟩, found⟩
        rcases asked.known with null | ⟨known, inside, same⟩
        · exact absurd null notNull
        · show input.2.2 ≤ _
          rw [← same]
          exact tracking.ids known inside
  · have sameId : ((harvestParser handle config fuel).processData (some self) text).2 =
        ((recorder).processData data.harvestProcessor text).2 := congrArg (· + 1) tracking.length
    rw [other sameId]
    refine ⟨fun final is => Or.inr ?_, fun data'' is _ => ?_⟩
    · exact ⟨data', _, parsedExpr, done, (Option.some.inj is).symm, tracking.given given⟩
    · obtain rfl := Option.some.inj (done.symm.trans is)
      exact ⟨_, parsedExpr, rfl, tracking.given given⟩

/-- **A whole harvest.** -/
theorem Tracking.run (events : List XmlEvent) : ∀ {data : MwsHarvestSaxUserData W (List Str)} {self : HarvestParser},
    Tracking handle config fuel dictionary data self → ∀ parsedExpr : Nat,
    (∀ final, events.foldlM (HarvestReader.step (harvestParser handle config fuel) true)
        (withProcessor data (some self) parsedExpr) = some final → final.harvestProcessor = none ∨
      ∃ data' self' parsedExpr', events.foldlM (HarvestReader.step recorder true) data = some data' ∧
        final = withProcessor data' (some self') parsedExpr' ∧ Tracking handle config fuel dictionary data' self') ∧
    (∀ data', events.foldlM (HarvestReader.step recorder true) data = some data' →
      (∀ call ∈ callsOf config dictionary data'.calls, Resolved (foundId handle fuel) call) →
      ∃ self' parsedExpr', events.foldlM (HarvestReader.step (harvestParser handle config fuel) true)
          (withProcessor data (some self) parsedExpr) = some (withProcessor data' (some self') parsedExpr') ∧
        Tracking handle config fuel dictionary data' self') := by
  induction events with
  | nil =>
    intro data self tracking parsedExpr
    refine ⟨fun final is => Or.inr ⟨data, self, parsedExpr, rfl, (Option.some.inj is).symm, tracking⟩, fun data' is _ => ?_⟩
    obtain rfl := Option.some.inj is
    exact ⟨self, parsedExpr, rfl, tracking⟩
  | cons event rest ih =>
    intro data self tracking parsedExpr
    obtain ⟨survives, resolves⟩ := tracking.step parsedExpr event
    refine ⟨fun final ran => ?_, fun data' ran resolved => ?_⟩
    · obtain ⟨next, stepped, later⟩ := Option.bind_eq_some_iff.mp ran
      rcases survives next stepped with lost | ⟨data', self', parsedExpr', done, rfl, tracking'⟩
      · -- what is lost stays lost
        refine Or.inl (@processHarvest_keeps W _ (harvestParser handle config fuel) (· = none) (fun _ => True)
          (fun state _ _ _ none _ => ?_) (fun state _ none => ?_) _ rest _ _ later lost fun _ _ => trivial)
        · rw [none]
          rfl
        · rw [none]
          rfl
      · rw [List.foldlM_cons, done]
        exact (ih tracking' parsedExpr').1 final later
    · obtain ⟨next, stepped, later⟩ := Option.bind_eq_some_iff.mp ran
      obtain ⟨more, grown⟩ := calls_foldlM rest later
      obtain ⟨self', parsedExpr', went, tracking'⟩ := resolves next stepped fun call member => resolved call (by
        rw [grown, callsOf_append]
        exact List.mem_append_left _ member)
      rw [List.foldlM_cons, went]
      exact (ih tracking' parsedExpr').2 data' later resolved

/-- **The documents of a harvest.** -/
theorem parseMwsHarvestFromFd_spec (events : List XmlEvent) :
    (∀ results, parseMwsHarvestFromFd handle config fuel W dictionary events = some results →
      ∃ reading : MwsHarvestSaxUserData W (List Str), processHarvest recorder true events [] = some reading ∧
        results = documentsOf (foundId handle fuel) reading.harvestProcessor (callsOf config dictionary reading.calls) ∧
        ∀ call ∈ callsOf config dictionary reading.calls, Fine (foundId handle fuel) reading.harvestProcessor.length call) ∧
    ∀ reading : MwsHarvestSaxUserData W (List Str), processHarvest recorder true events [] = some reading →
      (∀ call ∈ callsOf config dictionary reading.calls, Resolved (foundId handle fuel) call) →
      parseMwsHarvestFromFd handle config fuel W dictionary events =
        some (documentsOf (foundId handle fuel) reading.harvestProcessor (callsOf config dictionary reading.calls)) := by
  have start : Tracking handle config fuel dictionary (HarvestReader.init [] : MwsHarvestSaxUserData W (List Str))
      ⟨dictionary, []⟩ :=
    ⟨rfl, rfl, fun call member => absurd member List.not_mem_nil, fun entry member => absurd member List.not_mem_nil,
      fun input member => absurd member List.not_mem_nil⟩
  obtain ⟨survives, resolves⟩ := start.run events 0
  refine ⟨fun results parsed => ?_, fun reading read resolved => ?_⟩
  · obtain ⟨final, ran, got⟩ := Option.bind_eq_some_iff.mp parsed
    obtain ⟨self, is, got⟩ := Option.bind_eq_some_iff.mp got
    rcases survives final ran with lost | ⟨reading, self', parsedExpr', done, rfl, tracking⟩
    · rw [lost] at is
      cases is
    · obtain rfl := Option.some.inj is
      obtain rfl := Option.some.inj got
      exact ⟨reading, done, tracking.documents, tracking.fine⟩
  · obtain ⟨self, parsedExpr, went, tracking⟩ := resolves reading read resolved
    have went : processHarvest (harvestParser handle config fuel) true events (some ⟨dictionary, []⟩) = _ := went
    unfold parseMwsHarvestFromFd
    rw [went, ← tracking.documents]
    rfl

end Harvest

/-! ### Searches -/

/-- The id of a formula in the index. -/
def indexId (index : TmpIndex) (formula : EncodedFormula) : Option Nat := (index.leafAt formula).map TmpLeaf.id

/-- Formulas in the index are found by their ids. -/
theorem foundId_indexed (loaded : LoadedIndex) (formulas : List EncodedFormula) :
    (∀ formula ∈ formulas, (loaded.index.leafAt formula).isSome ∧ formula.IsConstant) →
    ∃ fuel, ∀ formula ∈ formulas, foundId loaded.handle fuel formula = indexId loaded.index formula ∧
      (indexId loaded.index formula).isSome := by
  intro all
  suffices together : ∃ enough, ∀ fuel, enough ≤ fuel → ∀ formula ∈ formulas,
      foundId loaded.handle fuel formula = indexId loaded.index formula ∧ (indexId loaded.index formula).isSome by
    obtain ⟨enough, found⟩ := together
    exact ⟨enough, found enough le_rfl⟩
  induction formulas with
  | nil => exact ⟨0, fun _ _ formula member => absurd member List.not_mem_nil⟩
  | cons formula rest ih =>
    obtain ⟨⟨stored, constants⟩, restAll⟩ := List.forall_mem_cons.mp all
    obtain ⟨leaf, is⟩ := Option.isSome_iff_exists.mp stored
    obtain ⟨enough, found⟩ := getResult_formula .whole loaded is constants fun _ _ _ => none
    obtain ⟨enough', found'⟩ := ih restAll
    refine ⟨max enough enough', fun fuel more => List.forall_mem_cons.mpr ⟨?_, found' fuel (le_of_max_le_right more)⟩⟩
    rw [foundId, getResult, found fuel (le_of_max_le_left more), indexId, is]
    exact ⟨rfl, rfl⟩

/-- An encoding that begins with a variable or range is not in an index, and finds nothing if it goes on. -/
theorem not_found_of_hole (loaded : LoadedIndex) {fuel : Nat} {first : EncodedToken} {rest : EncodedFormula}
    (hole : first.role ≠ .constant) (arity : first.arity = 1) (found : (foundId loaded.handle fuel (first :: rest)).isSome)
    (shape : WellFormed 1 loaded.index.root) : loaded.index.leafAt (first :: rest) = none := by
  cases rest with
  | nil =>
    -- the leaf of a formula stands behind the child node of its variable
    by_contra some
    obtain ⟨leaf, stored⟩ := Option.ne_none_iff_exists'.mp some
    have closes := closes_of_mem_leaves shape (loaded.shaped.mem_leaves.mpr stored)
    have goesOn : Closes EncodedToken.arity (0 + first.arity) [] := closes
    rw [arity] at goesOn
    exact not_closes_nil goesOn
  | cons next rest =>
    obtain ⟨fmId, found⟩ := Option.isSome_iff_exists.mp found
    obtain ⟨result, searched, -⟩ := Option.bind_eq_some_iff.mp found
    rw [getResult, getResult_hole .whole loaded shape hole (List.cons_ne_nil _ _)] at searched
    cases searched

/-! ### The hits of a document -/

/-- The formulas of a document, each with its expression. -/
def requestsOf (calls : List Call) (crawlId : CrawlId) : List (Call × Located × EncodedFormula) :=
  (calls.filter fun call => call.crawlId = crawlId).flatMap fun call => call.encodings.map (Prod.mk call)

/-- The hit of a formula, with its id. -/
def hitOf (ids : EncodedFormula → Option Nat) (request : Call × Located × EncodedFormula) : Option (Nat × Hit) :=
  (ids request.2.2).map fun fmId => (fmId, ⟨request.1.xmlId, request.2.1.getXpath⟩)

theorem hitsOf_eq (ids : EncodedFormula → Option Nat) (calls : List Call) (crawlId : CrawlId) :
    hitsOf ids calls crawlId = (requestsOf calls crawlId).filterMap (hitOf ids) := by
  rw [hitsOf, requestsOf, List.filterMap_flatMap]
  refine congrArg₂ _ (funext fun call => ?_) rfl
  rw [List.filterMap_map]
  rfl

theorem isSome_hitOf (ids : EncodedFormula → Option Nat) (request : Call × Located × EncodedFormula) :
    (hitOf ids request).isSome = (ids request.2.2).isSome := Option.isSome_map

/-- Maps with the same hits under every id have as many. -/
theorem length_pushed {first second : ParseResult} (same : first.idMappings = second.idMappings) :
    first.pushed.length = second.pushed.length := by
  have counts : (first.pushed.map Prod.fst).Perm (second.pushed.map Prod.fst) := by
    refine List.perm_iff_count.mpr fun fmId => ?_
    have lengths := congrArg List.length (congrFun same fmId)
    rw [ParseResult.idMappings, ParseResult.idMappings, List.length_map, List.length_map, ← List.countP_eq_length_filter,
      ← List.countP_eq_length_filter] at lengths
    rw [List.count_eq_countP, List.count_eq_countP, List.countP_map, List.countP_map]
    refine Eq.trans (List.countP_congr fun entry _ => ?_) (lengths.trans (List.countP_congr fun entry _ => ?_))
    · simp
    · simp
  simpa using counts.length_eq

/-- **Nothing is left out** of a document: if all of its formulas are found, and it has the hits of those in the index,
all of them are in the index. -/
theorem all_indexed {found indexed : EncodedFormula → Option Nat} {calls : List Call} {crawlId : CrawlId}
    {text text' : Str} (same : (ParseResult.mk text (hitsOf found calls crawlId)).idMappings =
      (ParseResult.mk text' (hitsOf indexed calls crawlId)).idMappings)
    (all : ∀ request ∈ requestsOf calls crawlId, (found request.2.2).isSome) :
    ∀ request ∈ requestsOf calls crawlId, (indexed request.2.2).isSome := by
  have lengths := length_pushed same
  simp only [hitsOf_eq, List.length_filterMap_eq_countP] at lengths
  have full : (requestsOf calls crawlId).countP (fun request => (hitOf found request).isSome) =
      (requestsOf calls crawlId).length :=
    List.countP_eq_length.mpr fun request member => (isSome_hitOf found request).trans (all request member)
  rw [full] at lengths
  intro request member
  rw [← isSome_hitOf]
  exact List.countP_eq_length.mp lengths.symm request member

theorem mem_requestsOf {calls : List Call} {call : Call} (member : call ∈ calls) {entry : Located × EncodedFormula}
    (inside : entry ∈ call.encodings) : (call, entry) ∈ requestsOf calls call.crawlId :=
  List.mem_flatMap.mpr ⟨call, List.mem_filter.mpr ⟨member, decide_eq_true rfl⟩, List.mem_map_of_mem inside⟩

/-- The hits depend on the ids of the formulas only. -/
theorem documentsOf_congr {first second : EncodedFormula → Option Nat} (texts : List Str) {calls : List Call}
    (same : ∀ call ∈ calls, ∀ entry ∈ call.encodings, first entry.2 = second entry.2) :
    documentsOf first texts calls = documentsOf second texts calls := by
  have hits : ∀ crawlId, hitsOf first calls crawlId = hitsOf second calls crawlId := by
    intro crawlId
    rw [hitsOf_eq, hitsOf_eq]
    refine List.filterMap_congr fun request member => ?_
    obtain ⟨call, among, inside⟩ := List.mem_flatMap.mp member
    obtain ⟨entry, listed, rfl⟩ := List.mem_map.mp inside
    rw [hitOf, hitOf, same call (List.mem_of_mem_filter among) entry listed]
  unfold documentsOf
  simp only [hits]

/-- A call is made with a dictionary that `put` calls have made, and which stays small if it is small in the end. -/
theorem mem_callsOf {config : EncoderConfig} (inputs : List (CmmlToken × Str × CrawlId)) : ∀ {dictionary : MeaningDictionary}
    {puts : List Str}, dictionary = (putAll empty puts).1 →
    (dictionaryAfterAll config dictionary inputs).map.length < 2 ^ 24 - 161 →
    ∀ {call : Call}, call ∈ callsOf config dictionary inputs → ∃ dictionary' puts' input,
      dictionary' = (putAll empty puts').1 ∧
      (dictionaryAfter config dictionary' input.1).map.length < 2 ^ 24 - 161 ∧ call = callOf config dictionary' input := by
  induction inputs with
  | nil => exact fun _ _ _ member => absurd member List.not_mem_nil
  | cons input rest ih =>
    intro dictionary puts made few call member
    obtain ⟨more, after⟩ := dictionaryAfterAll_puts config [input] made
    have after : dictionaryAfter config dictionary input.1 = (putAll empty (puts ++ more)).1 := after
    have fewRest : (dictionaryAfterAll config (dictionaryAfter config dictionary input.1) rest).map.length <
        2 ^ 24 - 161 := few
    rcases List.mem_cons.mp member with rfl | member
    · exact ⟨dictionary, puts, input, made, few_of_dictionaryAfterAll after fewRest, rfl⟩
    · exact ih after fewRest member

/-! ### All harvests -/

/-- **What the code needs** of a harvest: the reader comes to the end, and an expression with subexpressions that can be
encoded has a document, and all of these are in the index, without variables and ranges. -/
def Handles (W : TextWriter) (index : TmpIndex) (indexingOptions : EncoderConfig) (meaningDictionary : MeaningDictionary)
    (events : List XmlEvent) : Prop :=
  ∃ reading : MwsHarvestSaxUserData W (List Str), processHarvest recorder true events [] = some reading ∧
    ∀ call ∈ callsOf indexingOptions meaningDictionary reading.calls, ∀ entry ∈ call.encodings,
      call.crawlId ≠ crawlIdNull ∧ (index.leafAt entry.2).isSome ∧ entry.2.IsConstant

/-- **What is asked of the program**: no undefined behaviour, and each document has one hit for every formula of its
expressions that is in the index, under the id of the formula. -/
def Converts (W : TextWriter) (loaded : LoadedIndex) (indexingOptions : EncoderConfig)
    (meaningDictionary : MeaningDictionary) (events : List XmlEvent) : Prop :=
  ∃ reading : MwsHarvestSaxUserData W (List Str), processHarvest recorder true events [] = some reading ∧
    ∃ fuel results, parseMwsHarvestFromFd loaded.handle indexingOptions fuel W meaningDictionary events = some results ∧
      List.Forall₂ (fun result document => result.data = document.data ∧ result.idMappings = document.idMappings) results
        (documentsOf (indexId loaded.index) reading.harvestProcessor
          (callsOf indexingOptions meaningDictionary reading.calls))

/-- What is converted has nothing but formulas of the index. -/
theorem indexed_of_converts {W : TextWriter} {loaded : LoadedIndex} {config : EncoderConfig} {dictionary : MeaningDictionary}
    {events : List XmlEvent} (converts : Converts W loaded config dictionary events) :
    ∃ reading : MwsHarvestSaxUserData W (List Str), processHarvest recorder true events [] = some reading ∧ ∃ fuel,
      ∀ call ∈ callsOf config dictionary reading.calls, ∀ entry ∈ call.encodings, call.crawlId ≠ crawlIdNull ∧
        (foundId loaded.handle fuel entry.2).isSome ∧ (loaded.index.leafAt entry.2).isSome := by
  obtain ⟨reading, read, fuel, results, parsed, same⟩ := converts
  obtain ⟨reading', read', rfl, fine⟩ :=
    (@parseMwsHarvestFromFd_spec W loaded.handle config fuel dictionary events).1 results parsed
  obtain rfl := Option.some.inj (read.symm.trans read')
  refine ⟨reading, read, fuel, fun call member entry inside => ?_⟩
  obtain ⟨⟨positive, bound⟩, found⟩ := fine call member entry inside
  refine ⟨positive.ne', found, ?_⟩
  -- the document of the expression
  obtain ⟨number, document⟩ := Nat.exists_eq_add_of_lt positive
  rw [Nat.zero_add] at document
  have less : number < reading.harvestProcessor.length := by
    rw [document] at bound
    exact bound
  have mappings := (List.forall₂_iff_get.mp same).2 number
    (by rw [documentsOf, List.length_mapIdx]; exact less) (by rw [documentsOf, List.length_mapIdx]; exact less)
  simp only [documentsOf, List.get_eq_getElem, List.getElem_mapIdx, ← document] at mappings
  have indexed := all_indexed mappings.2 (fun request among => ?_) (call, entry) (mem_requestsOf member inside)
  · rwa [indexId, Option.isSome_map] at indexed
  · obtain ⟨other, listed, below⟩ := List.mem_flatMap.mp among
    obtain ⟨entry', inner, rfl⟩ := List.mem_map.mp below
    exact (fine other (List.mem_of_mem_filter listed) entry' inner).2

/-- **When a harvest is handled.** With fewer entries in the dictionary than there are ids for constants, these are all
the harvests the program converts. -/
theorem harvests2json_handles (W : TextWriter) (loaded : LoadedIndex) (indexingOptions : EncoderConfig) (puts : List Str)
    (events : List XmlEvent) :
    (Handles W loaded.index indexingOptions (putAll empty puts).1 events →
        Converts W loaded indexingOptions (putAll empty puts).1 events) ∧
      ((∀ reading : MwsHarvestSaxUserData W (List Str), processHarvest recorder true events [] = some reading →
          (dictionaryAfterAll indexingOptions (putAll empty puts).1 reading.calls).map.length < 2 ^ 24 - 161) →
        (Converts W loaded indexingOptions (putAll empty puts).1 events ↔
          Handles W loaded.index indexingOptions (putAll empty puts).1 events)) := by
  have converts : Handles W loaded.index indexingOptions (putAll empty puts).1 events →
      Converts W loaded indexingOptions (putAll empty puts).1 events := by
    rintro ⟨reading, read, all⟩
    obtain ⟨fuel, found⟩ := foundId_indexed loaded
      ((callsOf indexingOptions (putAll empty puts).1 reading.calls).flatMap Call.formulas) fun formula member => by
        obtain ⟨call, among, inside⟩ := List.mem_flatMap.mp member
        obtain ⟨entry, listed, rfl⟩ := List.mem_map.mp inside
        exact (all call among entry listed).2
    have known : ∀ call ∈ callsOf indexingOptions (putAll empty puts).1 reading.calls, ∀ entry ∈ call.encodings,
        foundId loaded.handle fuel entry.2 = indexId loaded.index entry.2 ∧ (indexId loaded.index entry.2).isSome :=
      fun call member entry inside =>
        found entry.2 (List.mem_flatMap.mpr ⟨call, member, List.mem_map_of_mem inside⟩)
    refine ⟨reading, read, fuel, _, parseMwsHarvestFromFd_spec events |>.2 reading read fun call member entry inside => ?_, ?_⟩
    · obtain ⟨same, indexed⟩ := known call member entry inside
      exact ⟨(all call member entry inside).1, same ▸ indexed⟩
    · rw [documentsOf_congr _ fun call member entry inside => (known call member entry inside).1]
      exact List.forall₂_same.mpr fun _ _ => ⟨rfl, rfl⟩
  refine ⟨converts, fun few => ⟨fun converted => ?_, converts⟩⟩
  obtain ⟨reading, read, fuel, all⟩ := indexed_of_converts converted
  refine ⟨reading, read, fun call member entry inside => ?_⟩
  obtain ⟨known, -, indexed⟩ := all call member entry inside
  refine ⟨known, indexed, fun token among => ?_⟩
  by_contra hole
  -- a variable or range of the expression is a subexpression, too
  obtain ⟨dictionary, puts', input, made, small, rfl⟩ := mem_callsOf reading.calls rfl (few reading read) member
  obtain ⟨other, listed, first, rest, formula, role, arity⟩ := exists_hole made small inside among hole
  obtain ⟨-, found, stored⟩ := all _ member other listed
  rw [formula] at found stored
  rcases loaded.shaped with new | shape
  · obtain ⟨leaf, is⟩ := Option.isSome_iff_exists.mp stored
    have inside := loaded.shaped.mem_leaves.mpr is
    rw [TmpIndex.leaves, new] at inside
    exact absurd inside (by simp [newNode, TmpIndexNode.leaves, TmpIndexNode.leavesOf])
  · rw [not_found_of_hole loaded role arity found shape] at stored
    cases stored

/-- An index of a few formulas is loaded from its image. -/
theorem exists_loaded {index : TmpIndex} {size : Nat} (shape : WellFormed 1 index.root)
    (fits : ∀ entry ∈ index.leaves, Fits entry.2)
    (length : (index.exportToMemsector 6 20 Memsector.create).map (fun result => result.2.length) = some size)
    (small : size < 2 ^ 34) : ∃ loaded : LoadedIndex, loaded.index = index := by
  obtain ⟨enough, mswr, file, computed, low, exported⟩ := TmpIndex.exported_spec (show 6 ≤ 2 ^ 32 by decide) shape fits
  obtain ⟨result, ran, is⟩ := Option.map_eq_some_iff.mp length
  have later := (TmpIndex.exportToMemsector_mono 6 index).le (le_max_left 20 enough) ran
  rw [computed _ (le_max_right 20 enough)] at later
  obtain rfl := Option.some.inj later
  obtain ⟨-, -, header, -, represents⟩ := exported (low (lt_of_eq_of_lt is small))
  exact ⟨⟨⟨file, Memsector.getRoot header⟩, index, Or.inr shape, fun _ => ⟨⟨1, shape⟩, represents⟩⟩, rfl⟩

/-! ### A harvest with a document -/

/-- `<ci>f</ci>`. -/
def handledF : CmmlToken := .mk ExpressionEncoder.ciTag [] ⟨['f'], isspace_of_all rfl⟩ []

/-- The application of `f` to `x`. -/
def handledTree : CmmlToken := .mk ['a', 'p', 'p', 'l', 'y'] [] .empty [handledF, lonelyX]

/-- A document and an expression that stands in it. -/
def handledHarvest : List XmlEvent :=
  [.startElement mwsharvestMainName [], .startElement mwsharvestDataName [(mwsharvestAttrLocalidName, ['d'])],
    .characters ['t'], .endElement mwsharvestDataName,
    .startElement mwsharvestExprName [(mwsharvestAttrLocalidName, ['d']), (mwsharvestExprAttrXmlidName, ['u'])],
    .startElement ['a', 'p', 'p', 'l', 'y'] [], .startElement ExpressionEncoder.ciTag [], .characters ['f'],
    .endElement ExpressionEncoder.ciTag, .startElement ExpressionEncoder.ciTag [], .characters ['x'],
    .endElement ExpressionEncoder.ciTag, .endElement ['a', 'p', 'p', 'l', 'y'], .endElement mwsharvestExprName,
    .endElement mwsharvestMainName]

/-- The meanings of the dictionary. -/
def handledPuts : List Str := [handledTree.getMeaning, handledF.getMeaning, lonelyX.getMeaning]

/-- The encodings of the subexpressions. -/
def handledEncodings : List EncodedFormula :=
  [[encodedToken 162 2, encodedToken 163 0, encodedToken 164 0], [encodedToken 163 0], [encodedToken 164 0]]

/-- The index of the formulas. -/
def handledIndex : TmpIndex := (TmpIndex.empty 0).insertAll handledEncodings

theorem callsOf_handled : callsOf ⟨false⟩ (putAll empty handledPuts).1 [(handledTree, ['u'], 1)] =
    [⟨['u'], 1, [(.root handledTree, [encodedToken 162 2, encodedToken 163 0, encodedToken 164 0]),
      (⟨handledF, some handledTree, [1]⟩, [encodedToken 163 0]),
      (⟨lonelyX, some handledTree, [2]⟩, [encodedToken 164 0])]⟩] := by
  have visits : dfs [.root handledTree] =
      [.root handledTree, ⟨handledF, some handledTree, [1]⟩, ⟨lonelyX, some handledTree, [2]⟩] := by
    rw [dfs_eq, List.flatMap_singleton]
    rfl
  have visitsF : dfs [⟨handledF, some handledTree, [1]⟩] = [⟨handledF, some handledTree, [1]⟩] := by
    rw [dfs_eq, List.flatMap_singleton]
    rfl
  have visitsX : dfs [⟨lonelyX, some handledTree, [2]⟩] = [⟨lonelyX, some handledTree, [2]⟩] := by
    rw [dfs_eq, List.flatMap_singleton]
    rfl
  rw [callsOf, callOf, encodings, foreachSubexpression, visits]
  simp only [encodingsFrom, encodeSubexpression, ExpressionEncoder.encode, ExpressionEncoder.encodeLoop_eq, visits,
    visitsF, visitsX]
  rfl

theorem handles_handledHarvest {loaded : LoadedIndex} (is : loaded.index = handledIndex) :
    Handles plainWriter loaded.index ⟨false⟩ (putAll empty handledPuts).1 handledHarvest := by
  refine ⟨_, rfl, ?_⟩
  show ∀ call ∈ callsOf ⟨false⟩ (putAll empty handledPuts).1 [(handledTree, ['u'], 1)], _
  rw [callsOf_handled, is]
  decide

/-- The harvest is converted. -/
theorem harvests2json_handles_handledHarvest : ∃ loaded : LoadedIndex, loaded.index = handledIndex ∧
    Converts plainWriter loaded ⟨false⟩ (putAll empty handledPuts).1 handledHarvest := by
  have built : handledIndex.Built := ((TmpIndex.Built.empty 0).insertAll (by decide)).1
  obtain ⟨loaded, is⟩ := exists_loaded (built.wellFormed fun empty => absurd (congrArg List.length empty) (by decide))
    (by unfold Fits; decide) (show _ = some 128 by decide +kernel) (by decide)
  exact ⟨loaded, is, (harvests2json_handles plainWriter loaded ⟨false⟩ handledPuts handledHarvest).1
    (handles_handledHarvest is)⟩

/-- `<ci>x</ci>` in an expression without an `mws:data_id`. -/
def orphanHarvest : List XmlEvent :=
  [.startElement mwsharvestMainName [], .startElement mwsharvestExprName [], .startElement ExpressionEncoder.ciTag [],
    .characters ['x'], .endElement ExpressionEncoder.ciTag, .endElement mwsharvestExprName, .endElement mwsharvestMainName]

/-- The index of its formula. -/
def orphanIndex : TmpIndex := (TmpIndex.empty 0).insertAll [[encodedToken 162 0]]

/-- **An expression without a document**, whose formula is in the index. -/
theorem harvests2json_orphan : ∃ loaded : LoadedIndex, loaded.index = orphanIndex ∧
    (∀ call ∈ callsOf ⟨false⟩ (putAll empty [lonelyX.getMeaning]).1 [(lonelyX, [], crawlIdNull)],
      ∀ entry ∈ call.encodings, (loaded.index.leafAt entry.2).isSome) ∧
    ¬ Converts plainWriter loaded ⟨false⟩ (putAll empty [lonelyX.getMeaning]).1 orphanHarvest := by
  have built : orphanIndex.Built := ((TmpIndex.Built.empty 0).insertAll (by decide)).1
  have shape : WellFormed 1 orphanIndex.root :=
    built.wellFormed fun empty => absurd (congrArg List.length empty) (by decide)
  have length : (orphanIndex.exportToMemsector 6 20 Memsector.create).map (fun result => result.2.length) =
      some 52 := by decide +kernel
  obtain ⟨loaded, is⟩ := exists_loaded shape (by unfold Fits; decide) length (by decide)
  have visits : dfs [.root lonelyX] = [.root lonelyX] := by
    rw [dfs_eq, List.flatMap_singleton]
    rfl
  have calls : callsOf ⟨false⟩ (putAll empty [lonelyX.getMeaning]).1 [(lonelyX, [], crawlIdNull)] =
      [⟨[], crawlIdNull, [(.root lonelyX, [encodedToken 162 0])]⟩] := by
    rw [callsOf, callOf, encodings, foreachSubexpression, visits, encodingsFrom, encodeSubexpression,
      ExpressionEncoder.encode, ExpressionEncoder.encodeLoop_eq, visits]
    rfl
  refine ⟨loaded, is, ?_, fun converts => ?_⟩
  · rw [calls, is]
    show ∀ call ∈ _, ∀ entry ∈ Call.encodings call, (orphanIndex.leafAt entry.2).isSome
    decide
  · obtain ⟨reading, read, fuel, all⟩ := indexed_of_converts converts
    obtain rfl := Option.some.inj read
    have member : (⟨[], crawlIdNull, [(.root lonelyX, [encodedToken 162 0])]⟩ : Call) ∈
        callsOf ⟨false⟩ (putAll empty [lonelyX.getMeaning]).1 [(lonelyX, [], crawlIdNull)] := by
      rw [calls]
      exact List.mem_cons_self
    exact (all _ member _ List.mem_cons_self).1 rfl

end Harvests2json

end MathWebSearch
