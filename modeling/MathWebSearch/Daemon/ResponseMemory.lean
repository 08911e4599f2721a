/-
**Responses and fresh memory** (`MwsJsonResponseFormatter`, `SchemaJsonResponseFormatter`, behind the handlers).

The constructor of `MwsAnswset` leaves `time` as the memory has it, and that of `Query` leaves `cutoff_mode`. `time` is set
by `SearchContext::getResult` only, and `cutoff_mode` by an attribute of the request only.

* `readMwsQuery_memory` — of a query document, the letter is what the memory has if it is not given; nothing else is.
* `independent_serveMws_iff` — the time of a response is that of the memory unless `getResult` makes the response.
* `CutsAlike` — trees that both heuristics cut to the same; `keptSymbols_of_respond` says that equal responses come from such.
* `responses_iff` — when the responses of the handlers do not depend on the memory.
-/

import MathWebSearch.Daemon.SchemaRequests
import MathWebSearch.Query.PrintedSchemata

namespace MathWebSearch

open CmmlToken EventStream ExpressionEncoder QueryReader SchemaEngine PartialTree

/-! ### The formatters -/

/-- The document of `MwsJsonResponseFormatter`. -/
structure MwsJson where
  total : Int
  time : Int
  qvars : List (Str × Str)
  hits : List Answer

/-- `MwsJsonResponseFormatter::writeData`, for an answer set and its `time`. -/
def MwsJson.writeData (answerSet : MwsAnswset) (time : Int) : MwsJson where
  total := answerSet.total
  time := castInt time
  qvars := answerSet.qvarNames.zip answerSet.qvarXpaths
  hits := answerSet.answers

/-- A schema in the document of `SchemaJsonResponseFormatter`. -/
structure SchemaEntry where
  cmmlSchema : Str
  coverage : Int
  formulae : List Int
  subst : List Str
deriving DecidableEq

/-- The document of `SchemaJsonResponseFormatter`. -/
structure SchemaJson where
  total : Int
  size : Int
  schemata : List SchemaEntry
deriving DecidableEq

/-- `SchemaJsonResponseFormatter::writeData`. -/
def SchemaJson.writeData (answSet : SchemaAnswset) : SchemaJson where
  total := answSet.total
  size := castInt answSet.schemata.length
  schemata := answSet.schemata.map fun exprSch =>
    ⟨exprSch.root.toString 0, castInt exprSch.coverage, exprSch.formulae.map fun id : Nat => castInt id, exprSch.subst⟩

/-! ### Serving a request -/

/-- What the fresh objects of a request hold where no constructor sets anything: the `Query`, and the `time` of the
`MwsAnswset`. -/
structure FreshMemory where
  query : QueryMemory
  time : Int

section Serving

variable (D : Doubles)

/-- `encode` returns zero. -/
def Encodes (config : EncoderConfig) (dictionary : MeaningDictionary) (token : CmmlToken) : Prop :=
  (encodeQuery D config dictionary token).2.2 = 0

instance (config : EncoderConfig) (dictionary : MeaningDictionary) (token : CmmlToken) :
    Decidable (Encodes D config dictionary token) := inferInstanceAs (Decidable (_ = _))

/-- A request to the daemon. `timed` says of which trees the handler comes to `getResult`, which sets `time` to what the
clock says has `elapsed`; nothing else sets it. -/
def serveMws (handle : Query → Option MwsAnswset) (timed : CmmlToken → Prop) [DecidablePred timed] (elapsed : Int)
    (events : List XmlEvent) (memory : FreshMemory) : Option MwsJson := do
  let query ← readMwsQuery memory.query .queryMws events
  let token ← query.tokens.head?
  let result ← handle query
  return .writeData result (if timed token then elapsed else memory.time)

/-- A request to the daemon on harvests. -/
def HarvestQueryHandler.serve (self : HarvestQueryHandler) (fuel : Nat) :
    Int → List XmlEvent → FreshMemory → Option MwsJson :=
  serveMws (self.handleQuery D fuel) (Encodes D self.encodingConfig self.meaningDictionary)

/-- A request to the daemon on an index. -/
def IndexQueryHandler.serve (self : IndexQueryHandler) (fuel : Nat) :
    Int → List XmlEvent → FreshMemory → Option MwsJson :=
  serveMws (self.handleQuery D fuel) fun token =>
    self.useExperimentalQueryEngine = false ∧ Encodes D self.encoding self.meaningDictionary token

/-- A request for schemata. -/
def SchemaQueryHandler.serve (self : SchemaQueryHandler) (order : SchemaEngine.Arrangement) (events : List XmlEvent)
    (memory : FreshMemory) : Option SchemaJson := do
  let query ← readMwsQuery memory.query .querySchema events
  let _ ← query.tokens.head?
  let result ← (self.handleQuery D order query).toOption
  return .writeData result

end Serving

/-- **The memory does not matter.** -/
def Independent {Response : Type} (serve : FreshMemory → Option Response) : Prop :=
  ∀ memory memory', serve memory = serve memory'

/-- Some run answers the request. -/
def GivesResponse {Response : Type} (serve : FreshMemory → Option Response) : Prop :=
  ∃ memory response, serve memory = some response

/-! ### What the memory has to do with a query -/

/-- A letter that is in the memory. -/
def Query.withLetter (self : Query) (letter : Char) : Query := { self with cutoffMode := letter }

/-- `cutoff_mode` is among the attributes. -/
def givesCutoffMode (attrs : List (Str × Str)) : Bool := attrs.any fun entry => entry.1 = schqueryAttrCutoffmode

/-- One attribute: the letter of the memory is overwritten, or it stays and nothing else depends on it. -/
theorem queryAttribute_withLetter (mode : QueryMode) (result : Query) (letter : Char) (entry : Str × Str) :
    queryAttribute mode (result.withLetter letter) entry =
      if entry.1 = schqueryAttrCutoffmode then queryAttribute mode result entry
      else (queryAttribute mode result entry).withLetter letter := by
  by_cases cutoff : entry.1 = schqueryAttrCutoffmode
  · rw [if_pos cutoff]
    unfold queryAttribute
    rw [cutoff]
    rfl
  · rw [if_neg cutoff]
    unfold queryAttribute outputFormat
    simp only [if_neg cutoff]
    split_ifs <;> rfl

/-- All attributes. -/
theorem foldl_queryAttribute_withLetter (mode : QueryMode) (attrs : List (Str × Str)) :
    ∀ (result : Query) (letter : Char), attrs.foldl (queryAttribute mode) (result.withLetter letter) =
      if givesCutoffMode attrs then attrs.foldl (queryAttribute mode) result
      else (attrs.foldl (queryAttribute mode) result).withLetter letter := by
  induction attrs with
  | nil => exact fun result letter => rfl
  | cons entry rest ih =>
    intro result letter
    rw [List.foldl_cons, List.foldl_cons, queryAttribute_withLetter, givesCutoffMode, List.any_cons, ← givesCutoffMode]
    by_cases here : entry.1 = schqueryAttrCutoffmode
    · rw [if_pos here, decide_eq_true here, Bool.true_or, if_pos rfl]
    · rw [if_neg here, decide_eq_false here, Bool.false_or, ih]

/-- **Of a query document** only the letter is what the memory has, and only if the document does not give it. -/
theorem readMwsQuery_memory (mode : QueryMode) {attrs : List (Str × Str)} {children : List XmlNode}
    {events : List XmlEvent} (delivered : Delivered [.element mwsqueryMainName attrs children] events) (fine : .error ∉ events) :
    ∃ base : Query, base.tokens = children.flatMap queryExpressionsOf ∧ ∀ memory, ∃ warnings,
      readMwsQuery memory mode events = some ({ base with warnings := warnings }.withLetter
        (if givesCutoffMode attrs then base.cutoffMode else memory.cutoffMode)) := by
  let start : Query := (init ⟨.mwsXml, 'A'⟩ mode).result
  refine ⟨{ attrs.foldl (queryAttribute mode) start with tokens := children.flatMap queryExpressionsOf }, rfl,
    fun memory => ?_⟩
  obtain ⟨query, read, tokens, settings⟩ := readMwsQuery_main memory mode delivered fine
  have letter : (init memory mode).result = start.withLetter memory.cutoffMode := rfl
  rw [letter, foldl_queryAttribute_withLetter] at settings
  refine ⟨query.warnings, read.trans (congrArg some ?_)⟩
  rw [← tokens]
  split_ifs at settings ⊢ with given
  · show query = { attrs.foldl (queryAttribute mode) start with tokens := query.tokens, warnings := query.warnings }
    rw [← settings]
  · show query = { (attrs.foldl (queryAttribute mode) start).withLetter memory.cutoffMode with
      tokens := query.tokens, warnings := query.warnings }
    rw [← settings]

/-- An answered request is a query document, and it has a tree. -/
theorem document_of_read {name : Str} {attrs : List (Str × Str)} {children : List XmlNode} {events : List XmlEvent}
    (delivered : Delivered [.element name attrs children] events) {memory : QueryMemory} {mode : QueryMode}
    {query : Query} {token : CmmlToken} (read : readMwsQuery memory mode events = some query) (first : query.tokens.head? = some token) :
    name = mwsqueryMainName ∧ .error ∉ events ∧ (children.flatMap queryExpressionsOf).head? = some token := by
  have document := readMwsQuery_document memory mode events
  have fine : .error ∉ events := fun struck => by
    rw [document.1 struck] at read
    cases read
  obtain ⟨query', read', tokens⟩ := document.2 name attrs children delivered fine
  obtain rfl : query' = query := Option.some.inj (read'.symm.trans read)
  rw [tokens] at first
  split_ifs at first with main
  · exact ⟨main, fine, first⟩
  · cases first

/-! ### The time -/

section Time

variable {attrs : List (Str × Str)} {children : List XmlNode} {events : List XmlEvent} {name : Str}
  {handle : Query → Option MwsAnswset} {timed : CmmlToken → Prop} [DecidablePred timed] {elapsed : Int}

/-- All responses to a request are one response, with different times if the time is that of the memory. -/
theorem serveMws_time (blind : ∀ query warnings letter, handle ({ query with warnings := warnings }.withLetter letter) =
    handle query) (delivered : Delivered [.element name attrs children] events)
    (answered : GivesResponse (serveMws handle timed elapsed events)) :
    ∃ token result, (children.flatMap queryExpressionsOf).head? = some token ∧ ∀ memory,
      serveMws handle timed elapsed events memory =
        some (.writeData result (if timed token then elapsed else memory.time)) := by
  obtain ⟨memory, response, served⟩ := answered
  obtain ⟨query, read, served⟩ := Option.bind_eq_some_iff.mp served
  obtain ⟨token, first, served⟩ := Option.bind_eq_some_iff.mp served
  obtain ⟨result, handled, -⟩ := Option.bind_eq_some_iff.mp served
  obtain ⟨rfl, fine, tree⟩ := document_of_read delivered read first
  obtain ⟨base, tokens, reads⟩ := readMwsQuery_memory .queryMws delivered fine
  obtain ⟨warnings, readBase⟩ := reads memory.query
  obtain rfl := Option.some.inj (readBase.symm.trans read)
  rw [blind] at handled
  refine ⟨token, result, tree, fun memory' => ?_⟩
  obtain ⟨warnings', readBase'⟩ := reads memory'.query
  have first' : ({ base with warnings := warnings' }.withLetter
      (if givesCutoffMode attrs then base.cutoffMode else memory'.query.cutoffMode)).tokens.head? = some token := first
  unfold serveMws
  simp only [readBase', Option.bind_eq_bind, Option.bind_some, first', blind, handled, Option.pure_def]

/-- **A response does not depend on the memory** exactly if `getResult` is what makes it. -/
theorem independent_serveMws_iff (blind : ∀ query warnings letter,
    handle ({ query with warnings := warnings }.withLetter letter) = handle query)
    (delivered : Delivered [.element name attrs children] events)
    (answered : GivesResponse (serveMws handle timed elapsed events)) :
    Independent (serveMws handle timed elapsed events) ↔
      ∀ token ∈ (children.flatMap queryExpressionsOf).head?, timed token := by
  obtain ⟨token, result, tree, served⟩ := serveMws_time blind delivered answered
  rw [tree]
  constructor
  · intro independent other first
    obtain rfl : token = other := Option.mem_some.mp first
    by_contra untimed
    have same := independent ⟨⟨.mwsXml, 'A'⟩, 0⟩ ⟨⟨.mwsXml, 'A'⟩, 1⟩
    rw [served, served, if_neg untimed, if_neg untimed] at same
    have time : castInt 0 = castInt 1 := congrArg MwsJson.time (Option.some.inj same)
    exact absurd time (by decide)
  · intro timed memory memory'
    rw [served, served, if_pos (timed token rfl), if_pos (timed token rfl)]

end Time

/-! ### The heuristic -/

section Heuristic

variable (D : Doubles) (self : SchemaQueryHandler) (order : Arrangement)

/-- The response to a query with a given letter. -/
def SchemaQueryHandler.respond (query : Query) (letter : Char) : Option SchemaJson :=
  (self.handleQuery D order (query.withLetter letter)).toOption.map SchemaJson.writeData

variable {D self order}

/-- Of the letter the handler takes notice only as far as it is `R` or not. -/
theorem SchemaQueryHandler.respond_eq (query : Query) (letter : Char) :
    self.respond D order query letter = self.respond D order query (if letter = 'R' then 'R' else 'A') := by
  have heuristic : SchemaQueryHandler.cutoffHeuristic letter =
      SchemaQueryHandler.cutoffHeuristic (if letter = 'R' then 'R' else 'A') := by
    unfold SchemaQueryHandler.cutoffHeuristic
    split_ifs <;> first | rfl | contradiction
  unfold respond handleQuery engine Query.withLetter
  rw [heuristic]

/-- At the absolute and at the relative cutoff, the same tokens are left of the formula of a tree, and they are read back
as the same tree. -/
structure CutsAlike (decoder : ExpressionDecoder) (depth : Nat) (entry : EncodedFormula × CmmlToken) : Prop where
  reduced : reduceEncoded ⟨decoder, .absolute⟩ entry.1 (cutoff ⟨decoder, .absolute⟩ depth entry.2) =
    reduceEncoded ⟨decoder, .relative⟩ entry.1 (cutoff ⟨decoder, .relative⟩ depth entry.2)
  decoded : ∀ kept, reduceEncoded ⟨decoder, .absolute⟩ entry.1 (cutoff ⟨decoder, .absolute⟩ depth entry.2) = .ok kept →
    decodeEncoded ⟨decoder, .absolute⟩ kept (cutoff ⟨decoder, .absolute⟩ depth entry.2) =
      decodeEncoded ⟨decoder, .relative⟩ kept (cutoff ⟨decoder, .relative⟩ depth entry.2)

section Loops

variable {decoder : ExpressionDecoder} {depth : Nat}

/-- Two loops have made the same groups, and the text of a group is read back alike at the cutoffs that they have noted. -/
structure Agree (decoder : ExpressionDecoder) (groups groups' : Groups) : Prop where
  schemaGroup : groups.schemaGroup = groups'.schemaGroup
  decoded : ∀ hash expr, unhashExpr hash = some expr → decodeEncoded ⟨decoder, .absolute⟩ expr (groups.cutoffs hash) =
    decodeEncoded ⟨decoder, .relative⟩ expr (groups'.cutoffs hash)

/-- One formula. -/
theorem Agree.add {groups groups' : Groups} (agree : Agree decoder groups groups') {entry : EncodedFormula × CmmlToken}
    (alike : CutsAlike decoder depth entry) {kept : EncodedFormula}
    (reduced : reduceEncoded ⟨decoder, .absolute⟩ entry.1 (cutoff ⟨decoder, .absolute⟩ depth entry.2) = .ok kept) (i : Nat) :
    Agree decoder
      ⟨addFormula (hashExpr kept) i groups.schemaGroup,
        Function.update groups.cutoffs (hashExpr kept) (cutoff ⟨decoder, .absolute⟩ depth entry.2)⟩
      ⟨addFormula (hashExpr kept) i groups'.schemaGroup,
        Function.update groups'.cutoffs (hashExpr kept) (cutoff ⟨decoder, .relative⟩ depth entry.2)⟩ := by
  refine ⟨congrArg (addFormula _ i) agree.schemaGroup, fun hash expr read => ?_⟩
  by_cases here : hash = hashExpr kept
  · subst here
    obtain rfl := Option.some.inj ((unhash_hash kept).symm.trans read)
    simp only [Function.update_self]
    exact alike.decoded kept reduced
  · simp only [Function.update_of_ne here]
    exact agree.decoded hash expr read

/-- **The loop over the formulae** stops short with both heuristics or makes the same groups. -/
theorem groupLoop_agree {formulae : List (EncodedFormula × CmmlToken)}
    (alike : ∀ entry ∈ formulae, CutsAlike decoder depth entry) : ∀ (i : Nat) (groups groups' : Groups),
    Agree decoder groups groups' →
      (∃ stop, groupLoop ⟨decoder, .absolute⟩ depth formulae i groups = .error stop ∧
        groupLoop ⟨decoder, .relative⟩ depth formulae i groups' = .error stop) ∨
      ∃ after after', groupLoop ⟨decoder, .absolute⟩ depth formulae i groups = .ok after ∧
        groupLoop ⟨decoder, .relative⟩ depth formulae i groups' = .ok after' ∧ Agree decoder after after' := by
  induction formulae with
  | nil => exact fun i groups groups' agree => .inr ⟨groups, groups', rfl, rfl, agree⟩
  | cons entry rest ih =>
    intro i groups groups' agree
    rw [List.forall_mem_cons] at alike
    obtain ⟨here, later⟩ := alike
    unfold groupLoop
    dsimp only
    rw [← here.reduced]
    cases reduced : reduceEncoded ⟨decoder, .absolute⟩ entry.1 (cutoff ⟨decoder, .absolute⟩ depth entry.2) with
    | error stop => exact .inl ⟨stop, rfl, rfl⟩
    | ok kept => exact ih later (i + 1) _ _ (agree.add here reduced _)

/-- The schemata of trees that are cut alike. -/
theorem getSchemata_congr {formulae : List (EncodedFormula × CmmlToken)}
    (alike : ∀ entry ∈ formulae, CutsAlike decoder depth entry) (order : Arrangement) (maxTotal : Nat) :
    getSchemata ⟨decoder, .absolute⟩ order formulae maxTotal depth =
      getSchemata ⟨decoder, .relative⟩ order formulae maxTotal depth := by
  unfold getSchemata
  rcases groupLoop_agree alike 0 ⟨[], fun _ => 0⟩ ⟨[], fun _ => 0⟩ ⟨rfl, fun _ _ _ => rfl⟩ with
    ⟨stop, absolute, relative⟩ | ⟨groups, groups', absolute, relative, agree⟩
  · rw [absolute, relative]
    rfl
  · have schemata : exprSchema ⟨decoder, .absolute⟩ groups.cutoffs = exprSchema ⟨decoder, .relative⟩ groups'.cutoffs := by
      funext group
      unfold exprSchema
      cases read : unhashExpr group.1 with
      | none => rfl
      | some expr =>
        dsimp only
        rw [agree.decoded group.1 expr read]
    rw [absolute, relative]
    simp only [bind, Except.bind, agree.schemaGroup, schemata]

end Loops

/-- Both heuristics cut all trees of a query that are accepted alike. -/
def SchemaQueryHandler.AllCutAlike (D : Doubles) (self : SchemaQueryHandler) (query : Query) : Prop :=
  ∀ entry ∈ (self.engine D query).2, CutsAlike (self.engine D query).1.decoder query.maxDepth entry

/-- **Trees that are cut alike** have the same response for both letters. -/
theorem SchemaQueryHandler.respond_of_allCutAlike {query : Query} (alike : self.AllCutAlike D query) :
    self.respond D order query 'A' = self.respond D order query 'R' := by
  have schemata := getSchemata_congr alike order (castUnsigned query.attrResultMaxSize)
  unfold respond handleQuery
  exact congrArg (fun result : Except Stop SchemaAnswset => (result.bind fun result => (result.schemata.mapM
    (withSubst query.tokens)).map fun schemata => ⟨schemata, result.total⟩).toOption.map SchemaJson.writeData) schemata

/-! ### Requests for all schemata -/

namespace SchemaQueryHandler

/-- A request for all schemata, of trees as documents have them. -/
structure AsksForAll (D : Doubles) (query : Query) : Prop where
  requested : ∀ token ∈ query.tokens, Requested token
  blankFree : ∀ token ∈ query.tokens, BlankFree token
  few : (namesOfRequest D query.tokens).map.length < 2 ^ 24 - 161
  small : query.tokens.length ≤ 2 ^ 32
  unlimited : castUnsigned query.attrResultMaxSize = 0

/-- The same nodes of a tree are left at the depth that is asked for and at the relative cutoff. -/
def LeavesAlike (depth : Nat) (tree : CmmlToken) : Prop :=
  keptSymbols depth tree = keptSymbols (cutoff ⟨.new .empty, .relative⟩ depth tree) tree

/-- A tree of which the same nodes are left is cut alike. -/
theorem LeavesAlike.cutsAlike {last : MeaningDictionary} {depth : Nat} {pair : EncodedFormula × CmmlToken}
    (read : Read D last pair) (alike : LeavesAlike depth pair.2) : CutsAlike (.new last) depth pair := by
  have reduced : reduceEncoded ⟨.new last, .absolute⟩ pair.1 (cutoff ⟨.new last, .absolute⟩ depth pair.2) =
      reduceEncoded ⟨.new last, .relative⟩ pair.1 (cutoff ⟨.new last, .relative⟩ depth pair.2) :=
    (@reduceEncoded_eq_iff _ _ .absolute _ _ read read _ _).mpr (congrArg word alike)
  refine ⟨reduced, fun kept left => ?_⟩
  have left' := reduced.symm.trans left
  rw [reduceEncoded_spelt (read.spelt _)] at left left'
  have decoded := decodeEncoded_spelt (read.spelt .absolute) (cutoff ⟨.new last, .absolute⟩ depth pair.2)
  have decoded' := decodeEncoded_spelt (read.spelt .relative) (cutoff ⟨.new last, .relative⟩ depth pair.2)
  rw [Except.ok.inj left] at decoded
  rw [Except.ok.inj left'] at decoded'
  rw [decoded, decoded']
  exact congrArg Except.ok (schemaOf_congr alike)

/-- Numbers of type `uint32_t` are not lost where they are shown as an `int`. -/
theorem eq_of_map_castInt {numbers numbers' : List Nat} (low : ∀ i ∈ numbers, i < 2 ^ 32) (low' : ∀ i ∈ numbers', i < 2 ^ 32)
    (same : (numbers.map fun id : Nat => castInt id) = numbers'.map fun id : Nat => castInt id) : numbers = numbers' := by
  have back : ∀ numbers : List Nat, (∀ i ∈ numbers, i < 2 ^ 32) →
      (numbers.map fun id : Nat => castInt id).map (fun shown : Int => (shown % (2 ^ 32 : Nat)).toNat) = numbers := by
    intro numbers low
    rw [List.map_map]
    refine (List.map_congr_left fun i member => ?_).trans (List.map_id numbers)
    rw [Function.comp_apply, castInt, Int.bmod_emod, ← Int.natCast_mod, Int.toNat_natCast, Nat.mod_eq_of_lt (low i member),
      id_eq]
  rw [← back numbers low, same, back numbers' low']

/-- What a response shows of a schema: its root and its formulae. -/
def shownOf (sch : ExprSchema) : Str × List Int := (sch.root.toString 0, sch.formulae.map fun id : Nat => castInt id)

/-- The response to a request for all schemata shows the schemata of the engine. -/
theorem respond_shared {query : Query} (asks : AsksForAll D query) (letter : Char) :
    ∃ result, Shared ⟨.new (namesOfRequest D query.tokens), cutoffHeuristic letter⟩ 0 query.maxDepth
        (formulaeOfRequest D query.tokens) result ∧
      Rooted ⟨.new (namesOfRequest D query.tokens), cutoffHeuristic letter⟩ query.maxDepth
        (formulaeOfRequest D query.tokens) result ∧
      (∀ sch ∈ result.schemata, ∀ i ∈ sch.formulae, i < 2 ^ 32) ∧
      ∃ response, (⟨⟨false⟩⟩ : SchemaQueryHandler).respond D order query letter = some response ∧
        (response.schemata.map fun entry => (entry.cmmlSchema, entry.formulae)) = result.schemata.map shownOf := by
  obtain ⟨result, answer, shared, rooted, low, answered, -, related⟩ :=
    @handleQuery_shared D (query.withLetter letter) asks.requested asks.few asks.small order
  have fewer : (formulaeOfRequest D query.tokens).length ≤ 2 ^ 32 := by
    rw [length_formulaeOfRequest asks.requested asks.few]
    exact (List.length_filter_le _ _).trans asks.small
  refine ⟨result, asks.unlimited ▸ shared, rooted, fun sch member i belongs => (low sch member i belongs).trans_le fewer,
    .writeData answer, by rw [respond, answered]; rfl, ?_⟩
  rw [← map_of_resolved (fun _ _ => rfl) related, SchemaJson.writeData, List.map_map]
  rfl

theorem givesResponse_of_asksForAll {memory : QueryMemory} {events : List XmlEvent} {query : Query} {token : CmmlToken}
    (read : readMwsQuery memory .querySchema events = some query) (first : query.tokens.head? = some token)
    (asks : AsksForAll D query) : GivesResponse ((⟨⟨false⟩⟩ : SchemaQueryHandler).serve D order events) := by
  obtain ⟨-, answer, -, -, -, answered, -⟩ := @handleQuery_shared D query asks.requested asks.few asks.small order
  refine ⟨⟨memory, 0⟩, .writeData answer, ?_⟩
  unfold serve
  simp only [read, Option.bind_eq_bind, Option.bind_some, first, answered, Except.toOption, Option.pure_def]

/-- **Equal responses** for both letters come from trees of which the same nodes are left. -/
theorem leavesAlike_of_respond {query : Query} (asks : AsksForAll D query)
    (same : (⟨⟨false⟩⟩ : SchemaQueryHandler).respond D order query 'A' = (⟨⟨false⟩⟩ : SchemaQueryHandler).respond D order query 'R') :
    ∀ tree ∈ query.tokens.filter narrow, LeavesAlike query.maxDepth tree := by
  obtain ⟨result, shared, rooted, low, response, responded, shown⟩ := @respond_shared D order query asks 'A'
  obtain ⟨result', shared', rooted', low', response', responded', shown'⟩ := @respond_shared D order query asks 'R'
  obtain rfl : response = response' := Option.some.inj (responded.symm.trans (same.trans responded'))
  have read := read_formulaeOfRequest asks.requested asks.few
  have numbered := getElem?_formulaeOfRequest asks.requested asks.few
  intro tree member
  obtain ⟨i, found⟩ := List.getElem?_of_mem member
  obtain ⟨pair, here, rfl⟩ := Option.map_eq_some_iff.mp ((numbered i).symm.trans found)
  -- the schema of the tree for one letter, and the one that is shown alike for the other
  obtain ⟨sch, among, belongs⟩ := List.mem_flatMap.mp ((shared.partition rfl).mem_iff.mpr
    (List.mem_range.mpr (List.getElem?_eq_some_iff.mp here).1))
  obtain ⟨sch', among', looks⟩ := List.mem_map.mp (shown'.symm.trans shown ▸ List.mem_map_of_mem among)
  obtain ⟨texts, ids⟩ := Prod.mk.inj looks
  have numbers : sch'.formulae = sch.formulae := eq_of_map_castInt (low' sch' among') (low sch among) ids
  -- the same nodes are left of the tree that the other schema is read back of, which is in both
  obtain ⟨k, belongs', other, there, root⟩ := rooted' sch' among'
  rw [numbers] at belongs'
  have inside := List.mem_of_getElem? here
  have inside' := List.mem_of_getElem? there
  have inRequest : other.2 ∈ query.tokens :=
    List.mem_of_mem_filter (List.mem_of_getElem? ((numbered k).trans (by rw [there]; rfl)))
  have both : LeavesAlike query.maxDepth other.2 := by
    rw [root, root_absolute (fun pair member => (read pair member).spelt .absolute) shared rooted sch among k belongs' other
      there] at texts
    have asked := asks.requested other.2 inRequest
    exact keptSymbols_eq_of_toString asked.plain asked.free (asks.blankFree other.2 inRequest) texts.symm
  -- and they are as many as of the tree, for both letters
  have left := (shared.together sch among i k pair other here there belongs).mp belongs'
  have left' := (shared'.together sch' among' i k pair other here there (numbers ▸ belongs)).mp (numbers ▸ belongs')
  rw [reduceEncoded_eq_iff (read _ inside') (read _ inside)] at left left'
  refine keptSymbols_eq_of_word (congrArg List.length ?_)
  exact left.symm.trans ((congrArg word both).trans left')

/-- **On requests for all schemata**, all trees are cut alike if the same nodes are left of each. -/
theorem respond_eq_iff {query : Query} (asks : AsksForAll D query) :
    (⟨⟨false⟩⟩ : SchemaQueryHandler).respond D order query 'A' = (⟨⟨false⟩⟩ : SchemaQueryHandler).respond D order query 'R' ↔
      ∀ tree ∈ query.tokens.filter narrow, LeavesAlike query.maxDepth tree := by
  refine ⟨leavesAlike_of_respond asks, fun alike => respond_of_allCutAlike fun entry member => ?_⟩
  refine LeavesAlike.cutsAlike (read_formulaeOfRequest asks.requested asks.few entry member)
    (alike entry.2 ?_)
  rw [← (encodings_request asks.requested asks.few).2]
  exact List.mem_map_of_mem member

end SchemaQueryHandler

/-- All responses to a request for schemata are responses to one query, with the letter that is given or that of the
memory. -/
theorem SchemaQueryHandler.serve_respond {name : Str} {attrs : List (Str × Str)} {children : List XmlNode}
    {events : List XmlEvent} (delivered : Delivered [.element name attrs children] events)
    (answered : GivesResponse (self.serve D order events)) :
    ∃ base : Query, ∀ memory,
      (∃ warnings, readMwsQuery memory.query .querySchema events = some ({ base with warnings := warnings }.withLetter
        (if givesCutoffMode attrs then base.cutoffMode else memory.query.cutoffMode))) ∧
      self.serve D order events memory = self.respond D order base
        (if givesCutoffMode attrs then base.cutoffMode else memory.query.cutoffMode) := by
  obtain ⟨memory, response, served⟩ := answered
  obtain ⟨query, read, served⟩ := Option.bind_eq_some_iff.mp served
  obtain ⟨token, first, -⟩ := Option.bind_eq_some_iff.mp served
  obtain ⟨rfl, fine, tree⟩ := document_of_read delivered read first
  obtain ⟨base, tokens, reads⟩ := readMwsQuery_memory .querySchema delivered fine
  rw [← tokens] at tree
  refine ⟨base, fun memory' => ⟨reads memory'.query, ?_⟩⟩
  obtain ⟨warnings, readBase⟩ := reads memory'.query
  have first' : ({ base with warnings := warnings }.withLetter
      (if givesCutoffMode attrs then base.cutoffMode else memory'.query.cutoffMode)).tokens.head? = some token := tree
  unfold serve respond
  simp only [readBase, Option.bind_eq_bind, Option.bind_some, first', Option.pure_def]
  rw [Option.map_eq_bind]
  rfl

/-- **Of schemata, a response does not depend on the memory** exactly if the request gives the letter or both letters have
the same response. -/
theorem SchemaQueryHandler.independent_serve_iff {name : Str} {attrs : List (Str × Str)} {children : List XmlNode}
    {events : List XmlEvent} (delivered : Delivered [.element name attrs children] events)
    (answered : GivesResponse (self.serve D order events)) :
    Independent (self.serve D order events) ↔ givesCutoffMode attrs = true ∨
      ∀ memory query, readMwsQuery memory .querySchema events = some query →
        self.respond D order query 'A' = self.respond D order query 'R' := by
  obtain ⟨base, served⟩ := serve_respond delivered answered
  by_cases given : givesCutoffMode attrs = true
  · refine iff_of_true (fun memory memory' => ?_) (Or.inl given)
    rw [(served memory).2, (served memory').2, if_pos given, if_pos given]
  rw [or_iff_right given]
  constructor
  · intro independent memory query read
    obtain ⟨warnings, readBase⟩ := (served ⟨memory, 0⟩).1
    obtain rfl := Option.some.inj (readBase.symm.trans read)
    have same := independent ⟨⟨.mwsXml, 'A'⟩, 0⟩ ⟨⟨.mwsXml, 'R'⟩, 0⟩
    rw [(served _).2, (served _).2, if_neg given, if_neg given] at same
    exact same
  · intro alike memory memory'
    obtain ⟨warnings, readBase⟩ := (served memory).1
    have same : self.respond D order base 'A' = self.respond D order base 'R' := by
      have same := alike _ _ readBase
      exact same
    rw [(served memory).2, (served memory').2, if_neg given, if_neg given, respond_eq base memory.query.cutoffMode,
      respond_eq base memory'.query.cutoffMode]
    split_ifs
    · rfl
    · exact same.symm
    · exact same
    · rfl

end Heuristic

/-! ### The responses -/

section Responses

variable {D : Doubles}

/-- **Responses and fresh memory.** For every request that is answered: on harvests and on an index, the response does not
depend on what the fresh objects hold exactly if the tree can be encoded and is searched for by `getResult`. Of schemata, it
does not if the request gives `cutoff_mode` or both heuristics cut all accepted trees alike; and on requests for all
schemata, exactly if the request gives `cutoff_mode` or the same nodes of each accepted tree are left at the depth and at the
relative cutoff. -/
theorem responses_iff (harvests : HarvestQueryHandler) (index : IndexQueryHandler) (schemata : SchemaQueryHandler)
    (order : Arrangement) (fuel : Nat) (elapsed : Int) {name : Str} {attrs : List (Str × Str)} {children : List XmlNode}
    {events : List XmlEvent} (delivered : Delivered [.element name attrs children] events) :
    (GivesResponse (harvests.serve D fuel elapsed events) → (Independent (harvests.serve D fuel elapsed events) ↔
      ∀ token ∈ (children.flatMap queryExpressionsOf).head?,
        Encodes D harvests.encodingConfig harvests.meaningDictionary token)) ∧
    (GivesResponse (index.serve D fuel elapsed events) → (Independent (index.serve D fuel elapsed events) ↔
      ∀ token ∈ (children.flatMap queryExpressionsOf).head?,
        index.useExperimentalQueryEngine = false ∧ Encodes D index.encoding index.meaningDictionary token)) ∧
    (GivesResponse (schemata.serve D order events) →
      ((givesCutoffMode attrs = true ∨ ∀ memory query, readMwsQuery memory .querySchema events = some query →
          schemata.AllCutAlike D query) → Independent (schemata.serve D order events)) ∧
      (schemata.encodingConfig = ⟨false⟩ → (∀ memory query, readMwsQuery memory .querySchema events = some query →
          SchemaQueryHandler.AsksForAll D query) →
        (Independent (schemata.serve D order events) ↔ givesCutoffMode attrs = true ∨
          ∀ memory query, readMwsQuery memory .querySchema events = some query →
            ∀ tree ∈ query.tokens.filter narrow, SchemaQueryHandler.LeavesAlike query.maxDepth tree))) := by
  refine ⟨independent_serveMws_iff (fun _ _ _ => rfl) delivered, independent_serveMws_iff (fun _ _ _ => rfl) delivered,
    fun answered => ⟨fun given => ?_, fun config asks => ?_⟩⟩
  · rw [SchemaQueryHandler.independent_serve_iff delivered answered]
    exact given.imp_right fun alike memory query read => SchemaQueryHandler.respond_of_allCutAlike (alike memory query read)
  · obtain ⟨config'⟩ := schemata
    obtain rfl : config' = ⟨false⟩ := config
    rw [SchemaQueryHandler.independent_serve_iff delivered answered]
    refine or_congr_right (forall_congr' fun memory => forall_congr' fun query => forall_congr' fun read => ?_)
    exact SchemaQueryHandler.respond_eq_iff (asks memory query read)

/-- A request for `x`. -/
def requestEvents (attrs : List (Str × Str)) : List XmlEvent :=
  [.startElement mwsqueryMainName attrs, .startElement mwsqueryExprName [], .startElement ['m', 'i'] [], .characters ['x'],
    .endElement ['m', 'i'], .endElement mwsqueryExprName, .endElement mwsqueryMainName]

/-- Harvests without formulae, with the meanings that are given. -/
def noHarvests (meanings : List Str) : HarvestQueryHandler where
  meaningDictionary := meanings.foldl (fun dictionary meaning => (dictionary.put meaning).1) .empty
  crawlDb := .empty
  formulaDb := .empty
  index := .empty 1
  encodingConfig := {}

/-- An index without formulae and meanings. -/
def noIndex : IndexQueryHandler where
  meaningDictionary := .empty
  indexHandle := ⟨[], 0⟩
  dbQueryManager := DbQueryManager.ofMemory .empty .empty
  encoding := {}
  useExperimentalQueryEngine := false

/-- The tree of the request. -/
def treeOfRequest : CmmlToken := .mk ['m', 'i'] [] (TextContent.empty.append ['x']) []

theorem delivered_requestEvents (attrs : List (Str × Str)) :
    Delivered [.element mwsqueryMainName attrs [.element mwsqueryExprName [] [.element ['m', 'i'] [] [.text ['x']]]]]
      (requestEvents attrs) := by
  have text : Delivered [.text ['x']] [.characters ['x']] := @Delivered.text Char [['x']] _ _ (List.cons_ne_nil _ _) .nil
  exact .element _ _ (.element _ [] (.element _ [] text .nil) .nil) .nil

/-- All schemata, at a depth. -/
def schemaAttrs (depth : Char) : List (Str × Str) := [(mwsqueryAttrAnswsetMaxsize, ['0']), (schqueryAttrDepth, [depth])]

theorem asksForAll_treeOfRequest {query : Query} (tokens : query.tokens = [treeOfRequest])
    (unlimited : query.attrResultMaxSize = 0) : SchemaQueryHandler.AsksForAll .whole query := by
  have requested : SchemaQueryHandler.Requested treeOfRequest := SchemaQueryHandler.requested_of_checks
    (by unfold VariableFree; decide +kernel) (by decide +kernel) (by decide +kernel) (by decide +kernel)
  refine ⟨?_, ?_, ?_, ?_, ?_⟩
  · rw [tokens]
    exact List.forall_mem_singleton.mpr requested
  · rw [tokens]
    refine List.forall_mem_singleton.mpr ?_
    unfold BlankFree
    decide +kernel
  · rw [tokens, SchemaQueryHandler.namesOfRequest, SchemaQueryHandler.encodeTokens_cons]
    decide +kernel
  · rw [tokens]
    decide
  · rw [unlimited]
    rfl

theorem leavesAlike_treeOfRequest_iff (depth : Nat) :
    SchemaQueryHandler.LeavesAlike depth treeOfRequest ↔ depth = 0 := by
  have edges : treeOfRequest.getExprDepth = 0 := by decide +kernel
  have none : cutoff ⟨.new .empty, .relative⟩ depth treeOfRequest = 0 := by
    show roundDouble (roundDouble (hundredth * depth) * treeOfRequest.getExprDepth) / 2 ^ 59 % 2 ^ 8 = 0
    rw [edges, Nat.mul_zero]
    decide
  rw [SchemaQueryHandler.LeavesAlike, none, keptSymbols_eq_stub_iff.mpr rfl, keptSymbols_eq_stub_iff]

/-- With the heuristic given and its meaning known, `x` is answered alike; an index that does not know the meaning shows
what the memory holds. All schemata of `x` are the same for both heuristics at depth 0, and not at depth 3. -/
theorem responses_x :
    Independent ((noHarvests [['m', 'i', '#', 'x']]).serve Doubles.whole 10 7
      (requestEvents [(schqueryAttrCutoffmode, ['R'])])) ∧
    ¬ Independent (noIndex.serve Doubles.whole 10 7 (requestEvents [(schqueryAttrCutoffmode, ['R'])])) ∧
    Independent ((⟨{}⟩ : SchemaQueryHandler).serve Doubles.whole largestFirst
      (requestEvents [(schqueryAttrCutoffmode, ['R'])])) ∧
    Independent ((⟨{}⟩ : SchemaQueryHandler).serve Doubles.whole largestFirst (requestEvents (schemaAttrs '0'))) ∧
    ¬ Independent ((⟨{}⟩ : SchemaQueryHandler).serve Doubles.whole largestFirst (requestEvents (schemaAttrs '3'))) := by
  obtain ⟨harvests, index, schemata⟩ := responses_iff (D := Doubles.whole) (noHarvests [['m', 'i', '#', 'x']]) noIndex ⟨{}⟩
    largestFirst 10 7 (delivered_requestEvents [(schqueryAttrCutoffmode, ['R'])])
  have harvestsAnswer : ((noHarvests [['m', 'i', '#', 'x']]).serve Doubles.whole 10 7
      (requestEvents [(schqueryAttrCutoffmode, ['R'])]) ⟨⟨.mwsXml, 'A'⟩, 0⟩).isSome = true := by decide +kernel
  have indexAnswers : (noIndex.serve Doubles.whole 10 7
      (requestEvents [(schqueryAttrCutoffmode, ['R'])]) ⟨⟨.mwsXml, 'A'⟩, 0⟩).isSome = true := by decide +kernel
  have schemataAnswer : ((⟨{}⟩ : SchemaQueryHandler).serve Doubles.whole largestFirst
      (requestEvents [(schqueryAttrCutoffmode, ['R'])]) ⟨⟨.mwsXml, 'A'⟩, 0⟩).isSome = true := by decide +kernel
  -- a request for all schemata, without the letter
  have ofDepth : ∀ depth ∈ ['0', '3'], (Independent ((⟨{}⟩ : SchemaQueryHandler).serve Doubles.whole largestFirst
      (requestEvents (schemaAttrs depth))) ↔ depth = '0') := by
    intro depth among
    have read : ∀ memory query, readMwsQuery memory .querySchema (requestEvents (schemaAttrs depth)) = some query →
        query.tokens = [treeOfRequest] ∧ query.attrResultMaxSize = 0 ∧ (query.maxDepth = 0 ↔ depth = '0') := by
      intro memory query read
      rcases List.mem_pair.mp among with rfl | rfl
      · obtain rfl := Option.some.inj read
        exact ⟨rfl, rfl, iff_of_true rfl rfl⟩
      · obtain rfl := Option.some.inj read
        exact ⟨rfl, rfl, iff_of_false (fun zero : 3 = 0 => absurd zero (by decide)) (by decide)⟩
    have asks := fun memory query is => asksForAll_treeOfRequest (read memory query is).1 (read memory query is).2.1
    obtain ⟨query, is⟩ : ∃ query, readMwsQuery ⟨.mwsXml, 'A'⟩ .querySchema (requestEvents (schemaAttrs depth)) = some query :=
      ⟨_, rfl⟩
    have some : query.tokens.head? = some treeOfRequest := by rw [(read _ query is).1]; rfl
    obtain ⟨-, -, schemata⟩ := responses_iff (D := Doubles.whole) (noHarvests []) noIndex ⟨{}⟩ largestFirst 10 7
      (delivered_requestEvents (schemaAttrs depth))
    rw [(schemata (SchemaQueryHandler.givesResponse_of_asksForAll is some (asks _ query is))).2 rfl asks]
    have accepted : [treeOfRequest].filter narrow = [treeOfRequest] := List.filter_cons_of_pos (by decide +kernel)
    constructor
    · rintro (given | alike)
      · rcases List.mem_pair.mp among with rfl | rfl <;> exact absurd given (by decide)
      · refine (read _ query is).2.2.mp ((leavesAlike_treeOfRequest_iff _).mp (alike _ query is _ ?_))
        rw [(read _ query is).1, accepted]
        exact List.mem_singleton_self _
    · refine fun zero => .inr fun memory query is tree member => ?_
      rw [(read _ query is).1, accepted] at member
      obtain rfl := List.mem_singleton.mp member
      exact (leavesAlike_treeOfRequest_iff _).mpr ((read _ query is).2.2.mpr zero)
  refine ⟨(harvests ⟨_, Option.isSome_iff_exists.mp harvestsAnswer⟩).mpr fun tree first => ?_, fun independent => ?_,
    (schemata ⟨_, Option.isSome_iff_exists.mp schemataAnswer⟩).1 (Or.inl rfl), (ofDepth '0' (by decide)).mpr rfl,
    fun independent => absurd ((ofDepth '3' (by decide)).mp independent) (by decide)⟩
  · obtain rfl : treeOfRequest = tree := Option.mem_some.mp first
    decide +kernel
  · have known := ((index ⟨_, Option.isSome_iff_exists.mp indexAnswers⟩).mp independent _ rfl).2
    revert known
    decide +kernel

/-- `x` where nothing is known of it: both handlers show the time that the memory holds. -/
theorem not_responses : ¬ Independent ((noHarvests []).serve Doubles.whole 10 7 (requestEvents [])) ∧
    ¬ Independent (noIndex.serve Doubles.whole 10 7 (requestEvents [])) := by
  refine ⟨fun independent => ?_, fun independent => ?_⟩
  · have time := congrArg (Option.map MwsJson.time) (independent ⟨⟨.mwsXml, 'A'⟩, 0⟩ ⟨⟨.mwsXml, 'A'⟩, 1⟩)
    revert time
    decide +kernel
  · have time := congrArg (Option.map MwsJson.time) (independent ⟨⟨.mwsXml, 'A'⟩, 0⟩ ⟨⟨.mwsXml, 'A'⟩, 1⟩)
    revert time
    decide +kernel

end Responses

end MathWebSearch
