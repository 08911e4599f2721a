/-
**The query reader** (`mws/xmlparser/readMwsQuery.cpp`).

The callbacks of the SAX parser drive a machine with four states that fills in a `Query`. An error drops the tokens that
are open and is remembered; at the end of the document the query is thrown away if there was one.

* `queryExpressionsOf` — the trees a child of `mws:query` contributes, read off the document.
* `readMwsQuery_of_merged` — it does not matter how the parser chunks the characters.
* `foldlM_root` — the machine over the root of a document without errors.
* `readMwsQuery_document` — a document without errors gives the query with the trees of all its expressions, whatever
  its texts are chunked into; one with an error gives none.

The members that the constructor of the user data leaves unset are set before they are read. Warnings of the parser are
only counted and left out, as are the texts that are printed.
-/

import MathWebSearch.Types.Query
import MathWebSearch.Xmlparser.TokenCursor

namespace MathWebSearch

open EventStream

/-! ### The machine -/

inductive MwsQueryState where
  | default
  | inMwsQuery
  | inMwsExpr
  | unknown
deriving DecidableEq

/-- `QueryMode`. -/
inductive QueryMode where
  | queryMws
  | querySchema
deriving DecidableEq

def mwsqueryMainName : Str := ['m', 'w', 's', ':', 'q', 'u', 'e', 'r', 'y']
def mwsqueryAttrAnswsetMaxsize : Str := ['a', 'n', 's', 'w', 's', 'i', 'z', 'e']
def mwsqueryAttrAnswsetLimitmin : Str := ['l', 'i', 'm', 'i', 't', 'm', 'i', 'n']
def mwsqueryAttrAnswsetTotalreq : Str := ['t', 'o', 't', 'a', 'l', 'r', 'e', 'q']
def mwsqueryAttrOutputformat : Str := ['o', 'u', 't', 'p', 'u', 't']
def schqueryAttrDepth : Str := ['s', 'c', 'h', 'e', 'm', 'a', '_', 'd', 'e', 'p', 't', 'h']
def schqueryAttrCutoffmode : Str := ['c', 'u', 't', 'o', 'f', 'f', '_', 'm', 'o', 'd', 'e']
def mwsqueryExprName : Str := ['m', 'w', 's', ':', 'e', 'x', 'p', 'r']
def xmlnsText : Str := ['x', 'm', 'l', 'n', 's', ':']

/-- `MwsQuery_SaxUserData`; `currentTokenRoot` is the last token of the cursor. -/
structure MwsQuerySaxUserData where
  unknownDepth : Int
  currentToken : Cursor
  state : MwsQueryState
  prevState : MwsQueryState
  errorDetected : Bool
  result : Query
  qMode : QueryMode

namespace QueryReader

/-- The constructor, with what `readMwsQuery` sets for its mode. -/
def init (memory : QueryMemory) (mode : QueryMode) : MwsQuerySaxUserData where
  unknownDepth := 0
  currentToken := []
  state := .default
  prevState := .default
  errorDetected := false
  result := { Query.new memory with
    responseFormatter := match mode with | .queryMws => .mwsXml | .querySchema => .schemaJson }
  qMode := mode

/-- The attribute `output`. -/
def outputFormat (mode : QueryMode) (result : Query) (value : Str) : Query :=
  if value = ['x', 'm', 'l'] then
    { result with responseFormatter := match mode with | .querySchema => .schemaXml | .queryMws => .mwsXml }
  else if value = ['j', 's', 'o', 'n'] then
    { result with responseFormatter := match mode with | .querySchema => .schemaJson | .queryMws => .mwsJson }
  else if value = ['m', 'w', 's', '-', 'i', 'd', 's'] then
    { result with responseFormatter := .mwsIds, options := ⟨false, true⟩ }
  else result

/-- An attribute of `mws:query`. -/
def queryAttribute (mode : QueryMode) (result : Query) (entry : Str × Str) : Query :=
  if entry.1.take 6 = xmlnsText then result
  else if entry.1 = mwsqueryAttrAnswsetMaxsize then
    { result with attrResultMaxSize := castSizeT (castInt (strtol entry.2)) }
  else if entry.1 = mwsqueryAttrAnswsetLimitmin then
    { result with attrResultLimitMin := castSizeT (castInt (strtol entry.2)) }
  else if entry.1 = mwsqueryAttrAnswsetTotalreq then
    { result with attrResultTotalReq := (getBoolType entry.2).toBool }
  else if entry.1 = schqueryAttrDepth then { result with maxDepth := castUint8 (castInt (strtol entry.2)) }
  else if entry.1 = schqueryAttrCutoffmode then { result with cutoffMode := entry.2.headD '\x00' }
  else if entry.1 = mwsqueryAttrOutputformat then outputFormat mode result entry.2
  else { result with warnings := result.warnings + 1 }

/-- Going to an unknown state, with a warning and the state saved. -/
def goUnknown (data : MwsQuerySaxUserData) : MwsQuerySaxUserData :=
  { data with
    result := { data.result with warnings := data.result.warnings + 1 }
    prevState := data.state
    state := .unknown
    unknownDepth := 1 }

/-- `my_startElement`. -/
def startElement (data : MwsQuerySaxUserData) (name : Str) (attrs : List (Str × Str)) : MwsQuerySaxUserData :=
  match data.state with
  | .default =>
    if name = mwsqueryMainName then
      { data with state := .inMwsQuery, result := attrs.foldl (queryAttribute data.qMode) data.result }
    else goUnknown data
  | .inMwsQuery => if name = mwsqueryExprName then { data with state := .inMwsExpr } else goUnknown data
  | .inMwsExpr => { data with currentToken := OpenToken.new name attrs :: data.currentToken }
  | .unknown => { data with unknownDepth := data.unknownDepth + 1 }

/-- The end tag of the root of an expression. -/
def pushToken (data : MwsQuerySaxUserData) (token : CmmlToken) : MwsQuerySaxUserData :=
  { data with result := { data.result with tokens := data.result.tokens ++ [token] }, currentToken := [] }

/-- `my_endElement`. -/
def endElement (data : MwsQuerySaxUserData) : MwsQuerySaxUserData :=
  match data.state with
  | .default => data
  | .inMwsQuery => { data with state := .default }
  | .inMwsExpr =>
    match data.currentToken with
    | [] => { data with state := .inMwsQuery }
    | [root] => pushToken data root.close
    | token :: parent :: rest => { data with currentToken := parent.attach token.close :: rest }
  | .unknown =>
    let data := { data with unknownDepth := data.unknownDepth - 1 }
    if data.unknownDepth = 0 then { data with state := data.prevState } else data

/-- `my_characters`. -/
def characters (data : MwsQuerySaxUserData) (chunk : Str) : MwsQuerySaxUserData :=
  match data.state, data.currentToken with
  | .inMwsExpr, token :: rest => { data with currentToken := token.appendTextContent chunk :: rest }
  | _, _ => data

/-- `my_error`. -/
def error (data : MwsQuerySaxUserData) : MwsQuerySaxUserData := { data with errorDetected := true, currentToken := [] }

/-- The callback for an event. -/
def callback (data : MwsQuerySaxUserData) : XmlEvent → MwsQuerySaxUserData
  | .startElement name attrs => startElement data name attrs
  | .characters chunk => characters data chunk
  | .endElement _ => endElement data
  | .error => error data

/-- `my_endDocument`: the query that is returned, none for the null pointer. -/
def endDocument (data : MwsQuerySaxUserData) : Option Query := if data.errorDetected then none else some data.result

/-- `readMwsQuery`, on the events the parser delivers. -/
def readMwsQuery (memory : QueryMemory) (mode : QueryMode) (events : List XmlEvent) : Option Query :=
  endDocument (events.foldl callback (init memory mode))

/-! ### Errors -/

theorem errorDetected_callback (data : MwsQuerySaxUserData) (event : XmlEvent) (detected : data.errorDetected = true) :
    (callback data event).errorDetected = true := by
  obtain ⟨unknownDepth, currentToken, state, prevState, errorDetected, result, qMode⟩ := data
  cases event with
  | startElement name attrs =>
    cases state with
    | default => simp only [callback, startElement]; split <;> exact detected
    | inMwsQuery => simp only [callback, startElement]; split <;> exact detected
    | inMwsExpr => exact detected
    | unknown => exact detected
  | characters chunk =>
    simp only [callback, characters]
    split <;> exact detected
  | endElement name =>
    cases state with
    | default => exact detected
    | inMwsQuery => exact detected
    | inMwsExpr => simp only [callback, endElement]; split <;> exact detected
    | unknown => simp only [callback, endElement]; split <;> exact detected
  | error => rfl

/-- An error is not forgotten. -/
theorem errorDetected_foldl (events : List XmlEvent) : ∀ data : MwsQuerySaxUserData,
    data.errorDetected = true ∨ .error ∈ events → (events.foldl callback data).errorDetected = true := by
  induction events with
  | nil => intro data either; exact either.resolve_right nofun
  | cons event rest ih =>
    intro data either
    refine ih (callback data event) ?_
    rcases either with detected | member
    · exact Or.inl (errorDetected_callback data event detected)
    · rcases List.mem_cons.mp member with rfl | member
      · exact Or.inl rfl
      · exact Or.inr member

theorem readMwsQuery_error (memory : QueryMemory) (mode : QueryMode) {events : List XmlEvent}
    (struck : .error ∈ events) : readMwsQuery memory mode events = none := by
  rw [readMwsQuery, endDocument, if_pos (errorDetected_foldl events _ (Or.inr struck))]

/-! ### Chunks -/

/-- The callback as a machine that cannot fail. -/
def step (data : MwsQuerySaxUserData) (event : XmlEvent) : Option MwsQuerySaxUserData := some (callback data event)

theorem foldlM_step (events : List XmlEvent) : ∀ data : MwsQuerySaxUserData,
    events.foldlM step data = some (events.foldl callback data) := by
  induction events with
  | nil => intro data; rfl
  | cons event rest ih => intro data; exact ih (callback data event)

/-- An unknown element is passed over. -/
theorem foldlM_unknown (data : MwsQuerySaxUserData) {forest : List XmlNode} {events : List XmlEvent}
    (delivered : Delivered forest events) (clean : hasErrors forest = false) :
    events.foldlM step { data with state := .unknown, unknownDepth := 1 } =
      some { data with state := .unknown, unknownDepth := 1 } := by
  let skipping : Nat → MwsQuerySaxUserData := fun depth => { data with state := .unknown, unknownDepth := depth }
  refine @foldlM_skip Char _ step skipping ?_ ?_ ?_ _ _ delivered ?_ 0
  · intro depth name attrs
    show some ({ data with state := .unknown, unknownDepth := ((depth + 1 : Nat) : Int) + 1 } : MwsQuerySaxUserData) = _
    congr 2
  · intro depth name
    have left : ((depth + 2 : Nat) : Int) - 1 = ((depth + 1 : Nat) : Int) := by omega
    have inside : ((depth + 1 : Nat) : Int) ≠ 0 := by omega
    show some (if ((depth + 2 : Nat) : Int) - 1 = 0 then _ else _) = _
    rw [left, if_neg inside]
  · intro depth chunk
    rfl
  · intro harm
    rw [clean] at harm
    cases harm

/-- Inside an expression element the machine works on its cursor. -/
theorem readsTokens (data : MwsQuerySaxUserData) (expr : data.state = .inMwsExpr) :
    ReadsTokens step fun cursor => { data with currentToken := cursor } := by
  refine ⟨?_, ?_, ?_⟩
  · intro token rest name attrs
    simp only [step, callback, startElement, expr]
  · intro token parent rest name
    simp only [step, callback, endElement, expr]
  · intro token rest chunk
    simp only [step, callback, characters, expr]

/-- One expression element after the other is added to the query. -/
theorem foldlM_expr {forest : List XmlNode} {events : List XmlEvent} (delivered : Delivered forest events) :
    hasErrors forest = false → ∀ data : MwsQuerySaxUserData, data.state = .inMwsExpr → data.currentToken = [] →
      events.foldlM step data = some ((trees forest).foldl pushToken data) := by
  induction delivered with
  | nil => intro _ data _ _; rw [trees]; rfl
  | @element name attrs children rest inner events below behind _ ih =>
    intro clean data expr closed
    rw [hasErrors_cons, hasError_element, Bool.or_eq_false_iff] at clean
    have opened : step data (.startElement name attrs) =
        some { data with currentToken := [OpenToken.new name attrs] } := by
      simp only [step, callback, startElement, expr, closed]
    have pushed : step { data with currentToken := [(OpenToken.new name attrs).absorb children] } (.endElement name) =
        some (pushToken data (tree name attrs children)) := by
      cases data
      cases expr
      rfl
    rw [List.foldlM_cons, opened, Option.bind_eq_bind, Option.bind_some, List.foldlM_append,
      foldlM_open (readsTokens data expr) below clean.1, Option.bind_eq_bind, Option.bind_some, List.foldlM_cons, pushed,
      Option.bind_eq_bind, Option.bind_some, trees_element, List.foldl_cons]
    exact ih clean.2 _ expr rfl
  | @text chunks rest events some behind ih =>
    intro clean data expr closed
    rw [hasErrors_cons, Node.hasError, Bool.false_or] at clean
    have all := @foldlM_characters Char _ step Unit (fun _ => data) (fun held _ => held)
      (fun _ chunk => by simp only [step, callback, characters, expr, closed]) (fun _ _ _ => rfl) chunks some ()
    rw [List.foldlM_append, all, Option.bind_eq_bind, Option.bind_some, trees_text]
    exact ih clean data expr closed
  | error behind ih =>
    intro clean
    rw [hasErrors_cons, Node.hasError, Bool.true_or] at clean
    cases clean

/-- The trees that a child of `mws:query` contributes. -/
def queryExpressionsOf : XmlNode → List CmmlToken
  | .element name _ children => if name = mwsqueryExprName then trees children else []
  | .text _ => []
  | .error => []

theorem foldl_pushToken (tokens : List CmmlToken) : ∀ data : MwsQuerySaxUserData, data.currentToken = [] →
    tokens.foldl pushToken data =
      { data with result := { data.result with tokens := data.result.tokens ++ tokens } } := by
  induction tokens with
  | nil => intro data _; rw [List.append_nil]; rfl
  | cons token rest ih =>
    intro data closed
    rw [List.foldl_cons, ih _ rfl]
    show ({ data with
      result := { data.result with tokens := data.result.tokens ++ [token] ++ rest }
      currentToken := [] } : MwsQuerySaxUserData) = _
    rw [List.append_assoc, List.singleton_append, ← closed]

/-- Two queries with the same settings: the trees and the warnings apart, they are alike. -/
def SameSettings (query other : Query) : Prop :=
  { query with tokens := other.tokens, warnings := other.warnings } = other

/-- The machine is in the query state, with no token open and no error seen, has the given trees, and its other settings
are those of `base`. -/
structure InQuery (base : Query) (data : MwsQuerySaxUserData) (tokens : List CmmlToken) : Prop where
  state : data.state = .inMwsQuery
  closed : data.currentToken = []
  fine : data.errorDetected = false
  tokens : data.result.tokens = tokens
  settings : SameSettings data.result base

/-- An element in the query state. -/
theorem foldlM_child {base : Query} {data : MwsQuerySaxUserData} {tokens : List CmmlToken}
    (inQuery : InQuery base data tokens) {name : Str}
    {attrs : List (Str × Str)} {children : List XmlNode} {inner : List XmlEvent} (below : Delivered children inner)
    (clean : hasErrors children = false) :
    ∃ after, (.startElement name attrs :: (inner ++ [.endElement name])).foldlM step data = some after ∧
      InQuery base after (tokens ++ queryExpressionsOf (.element name attrs children)) := by
  rw [queryExpressionsOf]
  by_cases expr : name = mwsqueryExprName
  · have opened : step data (.startElement name attrs) = some { data with state := .inMwsExpr } := by
      simp only [step, callback, startElement, inQuery.state, expr, if_true]
    rw [if_pos expr]
    refine ⟨{ data with result := { data.result with tokens := data.result.tokens ++ trees children } }, ?_,
      ⟨inQuery.state, inQuery.closed, inQuery.fine, by rw [← inQuery.tokens], inQuery.settings⟩⟩
    rw [List.foldlM_cons, opened, Option.bind_eq_bind, Option.bind_some, List.foldlM_append,
      foldlM_expr below clean { data with state := .inMwsExpr } rfl inQuery.closed, Option.bind_eq_bind,
      Option.bind_some, foldl_pushToken _ { data with state := .inMwsExpr } inQuery.closed]
    rw [foldlM_step]
    simp only [List.foldl_cons, List.foldl_nil, callback, endElement, inQuery.closed, inQuery.state]
  · have opened : step data (.startElement name attrs) = some (goUnknown data) := by
      simp only [step, callback, startElement, inQuery.state, expr, if_false]
    have run : inner.foldlM step (goUnknown data) = some (goUnknown data) :=
      foldlM_unknown { goUnknown data with prevState := data.state } below clean
    rw [if_neg expr, List.append_nil]
    refine ⟨{ goUnknown data with state := data.state, unknownDepth := 0 }, ?_,
      ⟨inQuery.state, inQuery.closed, inQuery.fine, inQuery.tokens, inQuery.settings⟩⟩
    rw [List.foldlM_cons, opened, Option.bind_eq_bind, Option.bind_some, List.foldlM_append, run, Option.bind_eq_bind,
      Option.bind_some]
    rfl

/-- **The machine over the children of `mws:query`.** -/
theorem foldlM_query {forest : List XmlNode} {events : List XmlEvent} (delivered : Delivered forest events) :
    hasErrors forest = false → ∀ {base : Query} {data : MwsQuerySaxUserData} {tokens : List CmmlToken},
      InQuery base data tokens → ∃ after, events.foldlM step data = some after ∧
        InQuery base after (tokens ++ forest.flatMap queryExpressionsOf) := by
  induction delivered with
  | nil =>
    intro _ base data tokens inQuery
    rw [List.flatMap_nil, List.append_nil]
    exact ⟨data, rfl, inQuery⟩
  | @element name attrs children rest inner events below behind _ ih =>
    intro clean base data tokens inQuery
    rw [hasErrors_cons, hasError_element, Bool.or_eq_false_iff] at clean
    obtain ⟨middle, run, inMiddle⟩ := @foldlM_child _ _ _ inQuery name attrs _ _ below clean.1
    obtain ⟨after, runRest, inAfter⟩ := ih clean.2 inMiddle
    refine ⟨after, ?_, by rwa [List.flatMap_cons, ← List.append_assoc]⟩
    have split : (.startElement name attrs :: (inner ++ .endElement name :: events) : List XmlEvent) =
        (.startElement name attrs :: (inner ++ [.endElement name])) ++ events := by simp
    rw [split, List.foldlM_append, run, Option.bind_eq_bind, Option.bind_some, runRest]
  | @text chunks rest events some behind ih =>
    intro clean base data tokens inQuery
    rw [hasErrors_cons, Node.hasError, Bool.false_or] at clean
    have all := @foldlM_characters Char _ step Unit (fun _ => data) (fun held _ => held)
      (fun _ chunk => by simp only [step, callback, characters, inQuery.state]) (fun _ _ _ => rfl) chunks some ()
    rw [List.foldlM_append, all, Option.bind_eq_bind, Option.bind_some]
    exact ih clean inQuery
  | error behind ih =>
    intro clean
    rw [hasErrors_cons, Node.hasError, Bool.true_or] at clean
    cases clean

theorem tokens_outputFormat (mode : QueryMode) (result : Query) (value : Str) :
    (outputFormat mode result value).tokens = result.tokens := by
  unfold outputFormat
  split
  · rfl
  · split
    · rfl
    · split
      · rfl
      · rfl

/-- The attributes of `mws:query` do not touch the trees. -/
theorem tokens_foldl_queryAttribute (mode : QueryMode) (attrs : List (Str × Str)) : ∀ result : Query,
    (attrs.foldl (queryAttribute mode) result).tokens = result.tokens := by
  induction attrs with
  | nil => intro result; rfl
  | cons entry rest ih =>
    intro result
    rw [List.foldl_cons, ih]
    unfold queryAttribute
    split_ifs
    · rfl
    · rfl
    · rfl
    · rfl
    · rfl
    · rfl
    · exact tokens_outputFormat mode result entry.2
    · rfl

/-- A document with a root `mws:query`: the trees, and the settings of the attributes. -/
theorem readMwsQuery_main (memory : QueryMemory) (mode : QueryMode) {attrs : List (Str × Str)} {children : List XmlNode}
    {events : List XmlEvent} (delivered : Delivered [.element mwsqueryMainName attrs children] events)
    (fine : .error ∉ events) :
    ∃ query, readMwsQuery memory mode events = some query ∧ query.tokens = children.flatMap queryExpressionsOf ∧
      SameSettings query (attrs.foldl (queryAttribute mode) (init memory mode).result) := by
  have clean : hasErrors children = false := by
    refine eq_false_of_ne_true fun harm => fine (delivered.error_mem ?_)
    rw [hasErrors_cons, hasError_element, harm, Bool.true_or]
  cases delivered with
  | @element _ _ _ _ inner _ below behind =>
    cases behind
    let opened : MwsQuerySaxUserData := { init memory mode with
      state := .inMwsQuery, result := attrs.foldl (queryAttribute mode) (init memory mode).result }
    have started : step (init memory mode) (.startElement mwsqueryMainName attrs) = some opened := by
      simp only [step, callback, startElement, init, if_true, opened]
    have inOpened : InQuery (attrs.foldl (queryAttribute mode) (init memory mode).result) opened [] :=
      ⟨rfl, rfl, rfl, tokens_foldl_queryAttribute mode attrs _, rfl⟩
    obtain ⟨last, run, inLast⟩ := foldlM_query below clean inOpened
    have closes : step last (.endElement mwsqueryMainName) = some { last with state := .default } := by
      simp only [step, callback, endElement, inLast.state]
    have whole : (.startElement mwsqueryMainName attrs :: (inner ++ [.endElement mwsqueryMainName])).foldlM step
        (init memory mode) = some { last with state := .default } := by
      rw [List.foldlM_cons, started, Option.bind_eq_bind, Option.bind_some, List.foldlM_append, run,
        Option.bind_eq_bind, Option.bind_some, List.foldlM_cons, closes]
      rfl
    rw [foldlM_step] at whole
    refine ⟨last.result, ?_, inLast.tokens, inLast.settings⟩
    rw [readMwsQuery, Option.some.inj whole, endDocument]
    exact if_neg (by rw [inLast.fine]; decide)

/-- **The query reader implements its grammar.** An error before the end of the document leaves no query. A document
without errors, however its texts are chunked, gives a query whose trees are, in document order, those of all element
children of all `mws:expr` children of a root `mws:query`, and none when the root has another name. -/
theorem readMwsQuery_document (memory : QueryMemory) (mode : QueryMode) (events : List XmlEvent) :
    (.error ∈ events → readMwsQuery memory mode events = none) ∧
      ∀ name attrs children, Delivered [.element name attrs children] events → .error ∉ events →
        ∃ query, readMwsQuery memory mode events = some query ∧
          query.tokens = if name = mwsqueryMainName then children.flatMap queryExpressionsOf else [] := by
  refine ⟨readMwsQuery_error memory mode, ?_⟩
  intro name attrs children delivered fine
  by_cases main : name = mwsqueryMainName
  · subst main
    obtain ⟨query, read, tokens, _⟩ := readMwsQuery_main memory mode delivered fine
    exact ⟨query, read, by rw [tokens, if_pos rfl]⟩
  have clean : hasErrors children = false := by
    refine eq_false_of_ne_true fun harm => fine (delivered.error_mem ?_)
    rw [hasErrors_cons, hasError_element, harm, Bool.true_or]
  cases delivered with
  | @element _ _ _ _ inner _ below behind =>
    cases behind
    have started : step (init memory mode) (.startElement name attrs) = some (goUnknown (init memory mode)) := by
      simp only [step, callback, startElement, init, main, if_false]
    have run : inner.foldlM step (goUnknown (init memory mode)) = some (goUnknown (init memory mode)) :=
      foldlM_unknown (goUnknown (init memory mode)) below clean
    have whole : (.startElement name attrs :: (inner ++ [.endElement name])).foldlM step (init memory mode) =
        some { goUnknown (init memory mode) with state := .default, unknownDepth := 0 } := by
      rw [List.foldlM_cons, started, Option.bind_eq_bind, Option.bind_some, List.foldlM_append, run,
        Option.bind_eq_bind, Option.bind_some]
      rfl
    rw [foldlM_step] at whole
    refine ⟨(goUnknown (init memory mode)).result, ?_, ?_⟩
    · rw [readMwsQuery, Option.some.inj whole]
      rfl
    · rw [if_neg main]
      rfl

/-- A query for a variable, with the text of its name in two chunks. -/
def sampleQueryEvents : List XmlEvent :=
  [.startElement mwsqueryMainName [(mwsqueryAttrAnswsetMaxsize, ['5'])], .startElement mwsqueryExprName [],
    .startElement CmmlToken.qvarTag [], .characters ['a', ' '], .characters ['b'], .endElement CmmlToken.qvarTag,
    .endElement mwsqueryExprName, .endElement mwsqueryMainName]

def sampleQueryChildren : List XmlNode :=
  [.element mwsqueryExprName [] [.element CmmlToken.qvarTag [] [.text ['a', ' ', 'b']]]]

theorem readMwsQuery_sampleQuery :
    (∃ query, readMwsQuery ⟨.mwsXml, 'A'⟩ .queryMws sampleQueryEvents = some query ∧
      query.tokens.map CmmlToken.getVarName = [['a', 'b']]) ∧
      readMwsQuery ⟨.mwsXml, 'A'⟩ .queryMws (.error :: sampleQueryEvents) = none := by
  have text : Delivered [.text ['a', ' ', 'b']] [.characters ['a', ' '], .characters ['b']] :=
    @Delivered.text Char [['a', ' '], ['b']] _ _ (by simp) .nil
  have expr := Delivered.element mwsqueryExprName [] (Delivered.element CmmlToken.qvarTag [] text .nil) .nil
  have delivered : Delivered [.element mwsqueryMainName [(mwsqueryAttrAnswsetMaxsize, ['5'])] sampleQueryChildren]
    sampleQueryEvents := Delivered.element mwsqueryMainName [(mwsqueryAttrAnswsetMaxsize, ['5'])] expr .nil
  obtain ⟨query, read, tokens⟩ :=
    (readMwsQuery_document ⟨.mwsXml, 'A'⟩ .queryMws sampleQueryEvents).2 _ _ _ delivered (by simp [sampleQueryEvents])
  refine ⟨⟨query, read, ?_⟩, ?_⟩
  · rw [tokens]
    decide
  · exact (readMwsQuery_document ⟨.mwsXml, 'A'⟩ .queryMws (.error :: sampleQueryEvents)).1 List.mem_cons_self

end QueryReader

end MathWebSearch
