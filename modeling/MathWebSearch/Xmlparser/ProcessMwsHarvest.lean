/-
**The harvest reader** (`mws/xmlparser/processMwsHarvest.cpp`).

The callbacks of the SAX parser drive a machine with five states; `none` is the failed assertion of the default state.
The processor is a parameter (`HarvestProcessor`), with a state of any type; so is libxml2's text writer, which collects
the contents of an `mws:data` element. The parser itself limits the nesting of elements, so that the depth counters do
not overflow.

* `attributeValue_eq_lookup` — the loops over the attributes find the one with the name.
* `readChild` — what a child of `mws:harvest` asks for, read off the document: the expressions below an `mws:expr` go to
  `processExpression` with its `url` and the crawl id of its `mws:data_id`, the contents of an `mws:data` to
  `processData`.
* `Harmless` — no error is reported inside an expression element.
* `foldlM_harvest` — over a harmless forest the machine does what `readChild` says and is in the harvest state again.
* `processHarvest_document` — the machine implements the grammar on every document without errors.

The field `calls` is no variable of the source: it lists the calls of `processExpression` so far. `warnings` and
`errorDetected` are only printed and left out.
-/

import MathWebSearch.Dbc.MemDb
import MathWebSearch.Xmlparser.TokenCursor

namespace MathWebSearch

open EventStream

/-! ### Parameters -/

/-- `HarvestProcessor`, over the state it changes; `processExpression` returns an `int`. -/
structure HarvestProcessor (σ : Type) where
  processExpression : σ → CmmlToken → Str → CrawlId → σ × Int
  processData : σ → Str → σ × CrawlId

/-- libxml2's text writer over a buffer, and `xmlEncodeSpecialChars`. Raw writes one after the other are one write, and
characters are encoded one by one. -/
structure TextWriter where
  Carrier : Type
  new : Carrier
  startElement : Carrier → Str → Carrier
  writeAttribute : Carrier → Str × Str → Carrier
  endElement : Carrier → Carrier
  writeRaw : Carrier → Str → Carrier
  endDocument : Carrier → Str
  encodeSpecialChars : Str → Str
  writeRaw_append : ∀ writer first second,
    writeRaw (writeRaw writer first) second = writeRaw writer (first ++ second)
  encodeSpecialChars_append : ∀ first second,
    encodeSpecialChars (first ++ second) = encodeSpecialChars first ++ encodeSpecialChars second

/-! ### The machine -/

inductive MwsHarvestState where
  | default
  | inMwsHarvest
  | inMwsExpr
  | inMwsData
  | unknown
deriving DecidableEq

def mwsharvestMainName : Str := ['m', 'w', 's', ':', 'h', 'a', 'r', 'v', 'e', 's', 't']
def mwsharvestExprName : Str := ['m', 'w', 's', ':', 'e', 'x', 'p', 'r']
def mwsharvestExprAttrXmlidName : Str := ['u', 'r', 'l']
def mwsharvestDataName : Str := ['m', 'w', 's', ':', 'd', 'a', 't', 'a']

/-- `MWSHARVEST_EXPR_ATTR_LOCALID_NAME` and `MWSHARVEST_DATA_ATTR_LOCALID_NAME`. -/
def mwsharvestAttrLocalidName : Str := ['m', 'w', 's', ':', 'd', 'a', 't', 'a', '_', 'i', 'd']

/-- `MWSHARVEST_EXPR_URI_DEFAULT`. -/
def mwsharvestExprUriDefault : Str := []

/-- `MwsHarvest_SaxUserData`; `currentTokenRoot` is the last token of the cursor. -/
structure MwsHarvestSaxUserData (W : TextWriter) (σ : Type) where
  state : MwsHarvestState
  unknownDepth : Int
  localIdToCrawlIds : List (Str × CrawlId)
  currentToken : Cursor
  prevState : MwsHarvestState
  parsedExpr : Nat
  harvestProcessor : σ
  stringWriter : W.Carrier
  copyDepth : Int
  exprUri : Str
  data : Str
  localId : Str
  calls : List (CmmlToken × Str × CrawlId)

/-- The value a loop over the attributes leaves in a variable: that of the last attribute with the name. -/
def attributeValue (attrs : List (Str × Str)) (name initially : Str) : Str :=
  attrs.foldl (fun value entry => if entry.1 = name then entry.2 else value) initially

/-- In a well-formed element no attribute comes twice, and the value is the one of the attribute. -/
theorem attributeValue_eq_lookup {attrs : List (Str × Str)} (distinct : (attrs.map Prod.fst).Nodup)
    (name initially : Str) : attributeValue attrs name initially = (attrs.lookup name).getD initially := by
  have absent : ∀ {rest : List (Str × Str)} {value : Str}, name ∉ rest.map Prod.fst →
      attributeValue rest name value = value := by
    intro rest
    induction rest with
    | nil => intro value _; rfl
    | cons entry rest ih =>
      intro value missing
      rw [List.map_cons, List.mem_cons, not_or] at missing
      rw [attributeValue, List.foldl_cons, if_neg fun same => missing.1 same.symm]
      exact ih missing.2
  induction attrs generalizing initially with
  | nil => rfl
  | cons entry rest ih =>
    rw [List.map_cons, List.nodup_cons] at distinct
    rw [attributeValue, List.foldl_cons, ← attributeValue, List.lookup_cons]
    by_cases same : name = entry.1
    · rw [if_pos same.symm, absent (same ▸ distinct.1), show (name == entry.1) = true from beq_iff_eq.mpr same]
      rfl
    · rw [if_neg fun equal => same equal.symm, show (name == entry.1) = false from beq_eq_false_iff_ne.mpr same]
      exact ih distinct.2 initially

namespace HarvestReader

variable {W : TextWriter} {σ : Type}

/-- The constructor; the members that it does not set are set before they are read. -/
def init (processor : σ) : MwsHarvestSaxUserData W σ where
  state := .default
  unknownDepth := 0
  localIdToCrawlIds := []
  currentToken := []
  prevState := .default
  parsedExpr := 0
  harvestProcessor := processor
  stringWriter := W.new
  copyDepth := 0
  exprUri := []
  data := []
  localId := []
  calls := []

/-- Going to an unknown state, with the state saved. -/
def goUnknown (data : MwsHarvestSaxUserData W σ) : MwsHarvestSaxUserData W σ :=
  { data with prevState := data.state, state := .unknown, unknownDepth := 1 }

/-- `my_startElement`. -/
def startElement (shouldProcessData : Bool) (data : MwsHarvestSaxUserData W σ) (name : Str)
    (attrs : List (Str × Str)) : MwsHarvestSaxUserData W σ :=
  match data.state with
  | .default => if name = mwsharvestMainName then { data with state := .inMwsHarvest } else goUnknown data
  | .inMwsHarvest =>
    if name = mwsharvestExprName then
      let localId := attributeValue attrs mwsharvestAttrLocalidName []
      { data with
        state := .inMwsExpr
        exprUri := attributeValue attrs mwsharvestExprAttrXmlidName mwsharvestExprUriDefault
        localId :=
          if shouldProcessData ∧ localId ≠ [] ∧ data.localIdToCrawlIds.lookup localId = none then [] else localId }
    else if name = mwsharvestDataName then
      let localId := attributeValue attrs mwsharvestAttrLocalidName []
      if localId = [] then goUnknown { data with localId := localId }
      else { data with localId := localId, stringWriter := W.new, state := .inMwsData, copyDepth := 1 }
    else goUnknown data
  | .inMwsExpr => { data with currentToken := OpenToken.new name attrs :: data.currentToken }
  | .inMwsData =>
    { data with
      copyDepth := data.copyDepth + 1
      stringWriter := attrs.foldl W.writeAttribute (W.startElement data.stringWriter name) }
  | .unknown => { data with unknownDepth := data.unknownDepth + 1 }

/-- The crawl id an expression is processed with. -/
def crawlIdOfLocalId (shouldProcessData : Bool) (data : MwsHarvestSaxUserData W σ) : CrawlId :=
  match data.localIdToCrawlIds.lookup data.localId with
  | some crawlId => if shouldProcessData then crawlId else crawlIdNull
  | none => crawlIdNull

/-- The end tag of the root of an expression. -/
def processRoot (P : HarvestProcessor σ) (shouldProcessData : Bool) (data : MwsHarvestSaxUserData W σ)
    (root : CmmlToken) : MwsHarvestSaxUserData W σ :=
  let crawlId := crawlIdOfLocalId shouldProcessData data
  let (processor, ret) := P.processExpression data.harvestProcessor root data.exprUri crawlId
  { data with
    harvestProcessor := processor
    parsedExpr := if ret ≠ -1 then ((data.parsedExpr + ret) % 2 ^ 64).toNat else data.parsedExpr
    currentToken := []
    calls := data.calls ++ [(root, data.exprUri, crawlId)] }

/-- The end tag of an `mws:data` element. -/
def processCopied (P : HarvestProcessor σ) (shouldProcessData : Bool) (data : MwsHarvestSaxUserData W σ) :
    MwsHarvestSaxUserData W σ :=
  let data := { data with data := W.endDocument data.stringWriter, state := .inMwsHarvest }
  if shouldProcessData then
    let (processor, crawlId) := P.processData data.harvestProcessor data.data
    { data with
      harvestProcessor := processor
      -- only `find` looks at the map, so that a new entry may hide an old one
      localIdToCrawlIds :=
        if crawlId ≠ crawlIdNull then (data.localId, crawlId) :: data.localIdToCrawlIds else data.localIdToCrawlIds }
  else data

/-- `my_endElement`; the name is only printed. -/
def endElement (P : HarvestProcessor σ) (shouldProcessData : Bool) (data : MwsHarvestSaxUserData W σ) :
    Option (MwsHarvestSaxUserData W σ) :=
  match data.state with
  | .default => none
  | .inMwsHarvest => some { data with state := .default }
  | .inMwsExpr =>
    match data.currentToken with
    | [] => some { data with state := .inMwsHarvest }
    | [root] => some (processRoot P shouldProcessData data root.close)
    | token :: parent :: rest => some { data with currentToken := parent.attach token.close :: rest }
  | .inMwsData =>
    let data := { data with stringWriter := W.endElement data.stringWriter, copyDepth := data.copyDepth - 1 }
    if data.copyDepth = 0 then some (processCopied P shouldProcessData data) else some data
  | .unknown =>
    let data := { data with unknownDepth := data.unknownDepth - 1 }
    some (if data.unknownDepth = 0 then { data with state := data.prevState } else data)

/-- `my_characters`. -/
def characters (data : MwsHarvestSaxUserData W σ) (chunk : Str) : MwsHarvestSaxUserData W σ :=
  match data.state with
  | .inMwsExpr =>
    match data.currentToken with
    | [] => data
    | token :: rest => { data with currentToken := token.appendTextContent chunk :: rest }
  | .inMwsData => { data with stringWriter := W.writeRaw data.stringWriter (W.encodeSpecialChars chunk) }
  | _ => data

/-- `my_error`: the tokens that are open are dropped. -/
def error (data : MwsHarvestSaxUserData W σ) : MwsHarvestSaxUserData W σ := { data with currentToken := [] }

/-- The callback for an event. -/
def step (P : HarvestProcessor σ) (shouldProcessData : Bool) (data : MwsHarvestSaxUserData W σ) :
    XmlEvent → Option (MwsHarvestSaxUserData W σ)
  | .startElement name attrs => some (startElement shouldProcessData data name attrs)
  | .characters chunk => some (characters data chunk)
  | .endElement _ => endElement P shouldProcessData data
  | .error => some (error data)

/-- `processHarvestFromFd`, on the events the parser delivers. -/
def processHarvest (P : HarvestProcessor σ) (shouldProcessData : Bool) (events : List XmlEvent) (processor : σ) :
    Option (MwsHarvestSaxUserData W σ) := events.foldlM (step P shouldProcessData) (init processor)

/-! ### What the document asks for -/

/-- What has come of a part of the document: the state of the processor, the ids of the `mws:data` elements with what
`processData` returned for them, and the calls of `processExpression`, each in document order. -/
structure Reading (σ : Type) where
  processor : σ
  answers : List (Str × CrawlId)
  calls : List (CmmlToken × Str × CrawlId)

/-- The latest id that is not null among the answers for a local id that is not empty. -/
def crawlIdOf (answers : List (Str × CrawlId)) (localId : Str) : CrawlId :=
  if localId = [] then crawlIdNull
  else ((answers.filter fun answer => answer.1 = localId ∧ answer.2 ≠ crawlIdNull).getLast?.map Prod.snd).getD
    crawlIdNull

/-- An expression is processed. -/
def readExpression (P : HarvestProcessor σ) (uri : Str) (crawlId : CrawlId) (reading : Reading σ) (token : CmmlToken) :
    Reading σ :=
  { reading with
    processor := (P.processExpression reading.processor token uri crawlId).1
    calls := reading.calls ++ [(token, uri, crawlId)] }

mutual

/-- What the writer makes of a node; every text is written at once. -/
def writeNode (W : TextWriter) : XmlNode → W.Carrier → W.Carrier
  | .element name attrs children, writer =>
    W.endElement (writeForest W children (attrs.foldl W.writeAttribute (W.startElement writer name)))
  | .text content, writer => W.writeRaw writer (W.encodeSpecialChars content)
  | .error, writer => writer

/-- What the writer makes of a forest. -/
def writeForest (W : TextWriter) : List XmlNode → W.Carrier → W.Carrier
  | [], writer => writer
  | node :: rest, writer => writeForest W rest (writeNode W node writer)

end

/-- The contents of an `mws:data` element; its own end tag is written, too. -/
def dataOf (W : TextWriter) (children : List XmlNode) : Str :=
  W.endDocument (W.endElement (writeForest W children W.new))

/-- **What a child of `mws:harvest` asks for.** -/
def readChild (W : TextWriter) (P : HarvestProcessor σ) (shouldProcessData : Bool) (reading : Reading σ) :
    XmlNode → Reading σ
  | .element name attrs children =>
    let localId := attributeValue attrs mwsharvestAttrLocalidName []
    if name = mwsharvestExprName then
      (trees children).foldl
        (readExpression P (attributeValue attrs mwsharvestExprAttrXmlidName mwsharvestExprUriDefault)
          (if shouldProcessData then crawlIdOf reading.answers localId else crawlIdNull)) reading
    else if name = mwsharvestDataName ∧ localId ≠ [] ∧ shouldProcessData then
      let (processor, crawlId) := P.processData reading.processor (dataOf W children)
      { reading with processor := processor, answers := reading.answers ++ [(localId, crawlId)] }
    else reading
  | .text _ => reading
  | .error => reading

/-- What a document asks for; only the children of a root `mws:harvest` are looked at. -/
def readDocument (W : TextWriter) (P : HarvestProcessor σ) (shouldProcessData : Bool) (processor : σ) (name : Str)
    (children : List XmlNode) : Reading σ :=
  if name = mwsharvestMainName then children.foldl (readChild W P shouldProcessData) ⟨processor, [], []⟩
  else ⟨processor, [], []⟩

/-- The expression elements of a child of `mws:harvest`, with the `url` of the `mws:expr` they stand in. -/
def expressionsOf : XmlNode → List (CmmlToken × Str)
  | .element name attrs children =>
    if name = mwsharvestExprName then
      (trees children).map fun token =>
        (token, attributeValue attrs mwsharvestExprAttrXmlidName mwsharvestExprUriDefault)
    else []
  | .text _ => []
  | .error => []

/-- No error is reported inside an expression element. -/
def Harmless (forest : List XmlNode) : Prop :=
  ∀ attrs children, .element mwsharvestExprName attrs children ∈ forest →
    ∀ name attrs' inner, .element name attrs' inner ∈ children → hasErrors inner = false

theorem calls_foldl_readExpression (P : HarvestProcessor σ) (uri : Str) (crawlId : CrawlId) (tokens : List CmmlToken) :
    ∀ reading : Reading σ, (tokens.foldl (readExpression P uri crawlId) reading).calls =
      reading.calls ++ tokens.map fun token => (token, uri, crawlId) := by
  induction tokens with
  | nil => intro reading; rw [List.map_nil, List.append_nil]; rfl
  | cons token rest ih =>
    intro reading
    rw [List.foldl_cons, ih, List.map_cons, readExpression, List.append_assoc, List.singleton_append]

theorem answers_foldl_readExpression (P : HarvestProcessor σ) (uri : Str) (crawlId : CrawlId)
    (tokens : List CmmlToken) : ∀ reading : Reading σ,
      (tokens.foldl (readExpression P uri crawlId) reading).answers = reading.answers := by
  induction tokens with
  | nil => intro reading; rfl
  | cons token rest ih => intro reading; rw [List.foldl_cons, ih]; rfl

/-- **The calls of a document are those of its expression elements**, in document order. -/
theorem calls_foldl_readChild (P : HarvestProcessor σ) (shouldProcessData : Bool) (forest : List XmlNode) :
    ∀ reading : Reading σ, (forest.foldl (readChild W P shouldProcessData) reading).calls.map
        (fun call => (call.1, call.2.1)) =
      reading.calls.map (fun call => (call.1, call.2.1)) ++ forest.flatMap expressionsOf := by
  induction forest with
  | nil => intro reading; rw [List.flatMap_nil, List.append_nil]; rfl
  | cons node rest ih =>
    intro reading
    have here : (readChild W P shouldProcessData reading node).calls.map (fun call => (call.1, call.2.1)) =
        reading.calls.map (fun call => (call.1, call.2.1)) ++ expressionsOf node := by
      cases node with
      | element name attrs children =>
        unfold readChild expressionsOf
        by_cases expr : name = mwsharvestExprName
        · simp only [if_pos expr]
          rw [calls_foldl_readExpression, List.map_append, List.map_map]
          rfl
        · simp only [if_neg expr, List.append_nil]
          split
          · rfl
          · rfl
      | text content => exact (List.append_nil _).symm
      | error => exact (List.append_nil _).symm
    rw [List.foldl_cons, ih, here, List.flatMap_cons, List.append_assoc]

/-! ### The machine does what the document asks for -/

section Runs

variable {P : HarvestProcessor σ} {shouldProcessData : Bool}

/-- An unknown element is passed over. -/
theorem foldlM_unknown (data : MwsHarvestSaxUserData W σ) (closed : data.currentToken = []) {forest : List XmlNode}
    {events : List XmlEvent} (delivered : Delivered forest events) :
    events.foldlM (step P shouldProcessData) { data with state := .unknown, unknownDepth := 1 } =
      some { data with state := .unknown, unknownDepth := 1 } := by
  let skipping : Nat → MwsHarvestSaxUserData W σ := fun depth =>
    { data with state := .unknown, unknownDepth := depth }
  refine @foldlM_skip Char _ (step P shouldProcessData) skipping ?_ ?_ ?_ _ _ delivered ?_ 0
  · intro depth name attrs
    show some ({ data with state := .unknown, unknownDepth := ((depth + 1 : Nat) : Int) + 1 } : MwsHarvestSaxUserData W σ) = _
    congr 2
  · intro depth name
    have left : ((depth + 2 : Nat) : Int) - 1 = ((depth + 1 : Nat) : Int) := by omega
    have inside : ((depth + 1 : Nat) : Int) ≠ 0 := by omega
    show some (if ((depth + 2 : Nat) : Int) - 1 = 0 then _ else _) = _
    rw [left, if_neg inside]
  · intro depth chunk
    rfl
  · intro _ depth
    show some { skipping (depth + 1) with currentToken := [] } = some (skipping (depth + 1))
    rw [← closed]

/-- The contents of an `mws:data` element are written. -/
theorem foldlM_data (data : MwsHarvestSaxUserData W σ) (closed : data.currentToken = []) {forest : List XmlNode}
    {events : List XmlEvent} (delivered : Delivered forest events) : ∀ (depth : Nat) (writer : W.Carrier),
    events.foldlM (step P shouldProcessData)
        { data with state := .inMwsData, copyDepth := ((depth + 1 : Nat) : Int), stringWriter := writer } =
      some { data with
        state := .inMwsData
        copyDepth := ((depth + 1 : Nat) : Int)
        stringWriter := writeForest W forest writer } := by
  induction delivered with
  | nil => intro depth writer; rfl
  | element name attrs below behind ihBelow ih =>
    intro depth writer
    have left : ((depth + 1 + 1 : Nat) : Int) - 1 = ((depth + 1 : Nat) : Int) := by omega
    have inside : ((depth + 1 : Nat) : Int) ≠ 0 := by omega
    have closes : ∀ writer : W.Carrier, step P shouldProcessData
        { data with state := .inMwsData, copyDepth := ((depth + 1 + 1 : Nat) : Int), stringWriter := writer }
          (.endElement name) =
        some { data with
          state := .inMwsData, copyDepth := ((depth + 1 : Nat) : Int), stringWriter := W.endElement writer } := by
      intro writer
      show (if ((depth + 1 + 1 : Nat) : Int) - 1 = 0 then _ else _) = _
      rw [left, if_neg inside]
    rw [List.foldlM_cons]
    show (List.foldlM _ { data with
      state := .inMwsData
      copyDepth := ((depth + 1 + 1 : Nat) : Int)
      stringWriter := attrs.foldl W.writeAttribute (W.startElement writer name) } _) = _
    rw [List.foldlM_append, ihBelow (depth + 1), Option.bind_eq_bind, Option.bind_some, List.foldlM_cons, closes,
      Option.bind_eq_bind, Option.bind_some, ih, writeForest, writeNode]
  | @text chunks rest events some behind ih =>
    intro depth writer
    let copying : W.Carrier → MwsHarvestSaxUserData W σ := fun writer =>
      { data with state := .inMwsData, copyDepth := ((depth + 1 : Nat) : Int), stringWriter := writer }
    have all := @foldlM_characters Char _ (step P shouldProcessData) W.Carrier copying
      (fun writer chunk => W.writeRaw writer (W.encodeSpecialChars chunk)) (fun writer chunk => rfl)
      (fun writer first second => by rw [W.writeRaw_append, W.encodeSpecialChars_append]) chunks some writer
    rw [List.foldlM_append, all, Option.bind_eq_bind, Option.bind_some, ih, writeForest, writeNode]
  | error behind ih =>
    intro depth writer
    have struck : step P shouldProcessData
        { data with state := .inMwsData, copyDepth := ((depth + 1 : Nat) : Int), stringWriter := writer } .error =
        some { data with state := .inMwsData, copyDepth := ((depth + 1 : Nat) : Int), stringWriter := writer } := by
      show some _ = some _
      rw [error, ← closed]
    rw [List.foldlM_cons, struck, Option.bind_eq_bind, Option.bind_some, ih, writeForest, writeNode]

/-- Inside an expression element the machine works on its cursor. -/
theorem readsTokens (data : MwsHarvestSaxUserData W σ) (expr : data.state = .inMwsExpr) :
    ReadsTokens (step P shouldProcessData) fun cursor => { data with currentToken := cursor } := by
  refine ⟨?_, ?_, ?_⟩
  · intro token rest name attrs
    simp only [step, startElement, expr]
  · intro token parent rest name
    simp only [step, endElement, expr]
  · intro token rest chunk
    simp only [step, characters, expr]

/-- One expression element after the other is processed. -/
theorem foldlM_expr {forest : List XmlNode} {events : List XmlEvent} (delivered : Delivered forest events) :
    (∀ name attrs inner, .element name attrs inner ∈ forest → hasErrors inner = false) →
      ∀ data : MwsHarvestSaxUserData W σ, data.state = .inMwsExpr → data.currentToken = [] →
        events.foldlM (step P shouldProcessData) data =
          some ((trees forest).foldl (processRoot P shouldProcessData) data) := by
  induction delivered with
  | nil => intro _ data _ _; rw [trees]; rfl
  | @element name attrs children rest inner events below behind _ ih =>
    intro clean data expr closed
    have opened : step P shouldProcessData data (.startElement name attrs) =
        some { data with currentToken := [OpenToken.new name attrs] } := by
      simp only [step, startElement, expr, closed]
    have processed : step P shouldProcessData
        { data with currentToken := [(OpenToken.new name attrs).absorb children] } (.endElement name) =
        some (processRoot P shouldProcessData data (tree name attrs children)) := by
      cases data
      cases expr
      rfl
    rw [List.foldlM_cons, opened, Option.bind_eq_bind, Option.bind_some, List.foldlM_append,
      foldlM_open (readsTokens data expr) below (clean name attrs children List.mem_cons_self), Option.bind_eq_bind,
      Option.bind_some, List.foldlM_cons, processed, Option.bind_eq_bind, Option.bind_some, trees_element,
      List.foldl_cons]
    exact ih (fun name attrs inner member => clean name attrs inner (List.mem_cons_of_mem _ member)) _ expr rfl
  | @text chunks rest events some behind ih =>
    intro clean data expr closed
    have all := @foldlM_characters Char _ (step P shouldProcessData) Unit (fun _ => data) (fun held _ => held)
      (fun _ chunk => by simp only [step, characters, expr, closed]) (fun _ _ _ => rfl) chunks some ()
    rw [List.foldlM_append, all, Option.bind_eq_bind, Option.bind_some, trees_text]
    exact ih (fun name attrs inner member => clean name attrs inner (List.mem_cons_of_mem _ member)) data expr closed
  | error behind ih =>
    intro clean data expr closed
    have struck : step P shouldProcessData data .error = Option.some data := by
      show some _ = some data
      rw [error, ← closed]
    rw [List.foldlM_cons, struck, Option.bind_eq_bind, Option.bind_some, trees_error]
    exact ih (fun name attrs inner member => clean name attrs inner (List.mem_cons_of_mem _ member)) data expr closed

end Runs

/-! ### The children of the root -/

/-- The variables of the machine hold what has come of the document so far. -/
structure Agrees (data : MwsHarvestSaxUserData W σ) (reading : Reading σ) : Prop where
  processor : data.harvestProcessor = reading.processor
  calls : data.calls = reading.calls
  answers : data.localIdToCrawlIds = (reading.answers.filter fun answer => answer.2 ≠ crawlIdNull).reverse
  named : ∀ answer ∈ reading.answers, answer.1 ≠ []

/-- The machine is in the harvest state, with no token open. -/
structure InHarvest (data : MwsHarvestSaxUserData W σ) (reading : Reading σ) : Prop extends Agrees data reading where
  state : data.state = .inMwsHarvest
  closed : data.currentToken = []

/-- The first entry of a reversed list is the last one of the list. -/
theorem lookup_reverse (entries : List (Str × CrawlId)) (key : Str) :
    entries.reverse.lookup key = (entries.filter fun entry => entry.1 = key).getLast?.map Prod.snd := by
  induction entries using List.reverseRecOn with
  | nil => rfl
  | append_singleton front entry ih =>
    rw [List.reverse_append, List.reverse_singleton, List.singleton_append, List.lookup_cons, List.filter_append]
    by_cases same : entry.1 = key
    · have equal : (key == entry.1) = true := beq_iff_eq.mpr same.symm
      rw [equal, List.filter_singleton, decide_eq_true same, cond_true, List.getLast?_concat]
      rfl
    · have different : (key == entry.1) = false := beq_eq_false_iff_ne.mpr fun equal => same equal.symm
      rw [different, List.filter_singleton, decide_eq_false same, cond_false, List.append_nil]
      exact ih

/-- The map has the latest id for every local id. -/
theorem Agrees.lookup_getD {data : MwsHarvestSaxUserData W σ} {reading : Reading σ} (agrees : Agrees data reading)
    (localId : Str) :
    (data.localIdToCrawlIds.lookup localId).getD crawlIdNull = crawlIdOf reading.answers localId := by
  rw [agrees.answers, lookup_reverse, List.filter_filter, crawlIdOf]
  by_cases empty : localId = []
  · have nothing : (reading.answers.filter fun answer =>
        decide (answer.1 = localId) && decide (answer.2 ≠ crawlIdNull)) = [] := by
      rw [List.filter_eq_nil_iff]
      intro answer member
      have named := agrees.named answer member
      simp [empty, named]
    rw [nothing, if_pos empty]
    rfl
  · rw [if_neg empty]
    simp only [Bool.decide_and]

theorem agrees_processRoot {P : HarvestProcessor σ} {shouldProcessData : Bool} {data : MwsHarvestSaxUserData W σ}
    {reading : Reading σ} (agrees : Agrees data reading) (token : CmmlToken) :
    Agrees (processRoot P shouldProcessData data token)
      (readExpression P data.exprUri (crawlIdOfLocalId shouldProcessData data) reading token) := by
  refine ⟨?_, ?_, agrees.answers, agrees.named⟩
  · show (P.processExpression data.harvestProcessor token data.exprUri _).1 = _
    rw [agrees.processor]
    rfl
  · show data.calls ++ _ = reading.calls ++ _
    rw [agrees.calls]

/-- The expressions of one `mws:expr` element. -/
theorem agrees_foldl_processRoot (P : HarvestProcessor σ) {shouldProcessData : Bool} {uri : Str} {crawlId : CrawlId}
    (tokens : List CmmlToken) : ∀ {data : MwsHarvestSaxUserData W σ} {reading : Reading σ}, Agrees data reading →
      data.exprUri = uri → crawlIdOfLocalId shouldProcessData data = crawlId → data.state = .inMwsExpr →
      data.currentToken = [] →
      Agrees (tokens.foldl (processRoot P shouldProcessData) data)
          (tokens.foldl (readExpression P uri crawlId) reading) ∧
        (tokens.foldl (processRoot P shouldProcessData) data).state = .inMwsExpr ∧
        (tokens.foldl (processRoot P shouldProcessData) data).currentToken = [] := by
  induction tokens with
  | nil =>
    intro data reading agrees _ _ expr closed
    exact ⟨agrees, expr, closed⟩
  | cons token rest ih =>
    intro data reading agrees sameUri sameId expr closed
    have step : Agrees (processRoot P shouldProcessData data token) _ := agrees_processRoot agrees token
    rw [sameUri, sameId] at step
    exact ih step sameUri sameId expr rfl

section Children

variable {P : HarvestProcessor σ} {shouldProcessData : Bool} {data : MwsHarvestSaxUserData W σ} {reading : Reading σ}

/-- An `mws:expr` element in the harvest state. -/
theorem foldlM_child_expr (inHarvest : InHarvest data reading) (attrs : List (Str × Str)) {children : List XmlNode}
    {inner : List XmlEvent} (below : Delivered children inner)
    (clean : ∀ name attrs' inner', .element name attrs' inner' ∈ children → hasErrors inner' = false) :
    ∃ after, (.startElement mwsharvestExprName attrs :: (inner ++ [.endElement mwsharvestExprName])).foldlM
        (step P shouldProcessData) data = some after ∧
      InHarvest after (readChild W P shouldProcessData reading (.element mwsharvestExprName attrs children)) := by
  let opened := startElement shouldProcessData data mwsharvestExprName attrs
  have opened_eq : opened = { data with
      state := .inMwsExpr
      exprUri := attributeValue attrs mwsharvestExprAttrXmlidName mwsharvestExprUriDefault
      localId := opened.localId } := by
    simp only [opened, startElement, inHarvest.state, if_pos]
  have localId : opened.localId =
      if shouldProcessData ∧ attributeValue attrs mwsharvestAttrLocalidName [] ≠ [] ∧
        data.localIdToCrawlIds.lookup (attributeValue attrs mwsharvestAttrLocalidName []) = none then []
      else attributeValue attrs mwsharvestAttrLocalidName [] := by
    simp only [opened, startElement, inHarvest.state, if_pos]
  have map : opened.localIdToCrawlIds = data.localIdToCrawlIds := by rw [opened_eq]
  have agrees : Agrees opened reading := by
    rw [opened_eq]
    exact ⟨inHarvest.processor, inHarvest.calls, inHarvest.answers, inHarvest.named⟩
  have crawlId : crawlIdOfLocalId shouldProcessData opened =
      if shouldProcessData then crawlIdOf reading.answers (attributeValue attrs mwsharvestAttrLocalidName [])
      else crawlIdNull := by
    rw [← inHarvest.lookup_getD, crawlIdOfLocalId, map]
    cases shouldProcessData with
    | false =>
      split
      · rfl
      · rfl
    | true =>
      -- a local id that the map does not have is dropped, and the map has no entry for the empty one
      have nothing : data.localIdToCrawlIds.lookup [] = none := by
        rw [inHarvest.answers, lookup_reverse, List.filter_filter, Option.map_eq_none_iff, List.getLast?_eq_none_iff,
          List.filter_eq_nil_iff]
        intro answer member
        simp [inHarvest.named answer member]
      by_cases missing : data.localIdToCrawlIds.lookup (attributeValue attrs mwsharvestAttrLocalidName []) = none
      · have looked : data.localIdToCrawlIds.lookup opened.localId = none := by
          rw [localId]
          split
          · exact nothing
          · exact missing
        rw [looked, missing]
        rfl
      · have same : opened.localId = attributeValue attrs mwsharvestAttrLocalidName [] := by
          rw [localId]
          exact if_neg fun dropped => missing dropped.2.2
        rw [same]
        cases data.localIdToCrawlIds.lookup (attributeValue attrs mwsharvestAttrLocalidName []) with
        | none => rfl
        | some id => rfl
  obtain ⟨agreesAfter, expr, closed⟩ := agrees_foldl_processRoot P (trees children) agrees
    (by rw [opened_eq]) crawlId (by rw [opened_eq]) (by rw [opened_eq]; exact inHarvest.closed)
  refine ⟨{ (trees children).foldl (processRoot P shouldProcessData) opened with state := .inMwsHarvest }, ?_, ?_⟩
  · have run : inner.foldlM (step P shouldProcessData) opened = _ :=
      foldlM_expr below clean opened (by rw [opened_eq]) (by rw [opened_eq]; exact inHarvest.closed)
    rw [List.foldlM_cons]
    show (List.foldlM _ opened _) = _
    rw [List.foldlM_append, run, Option.bind_eq_bind, Option.bind_some, List.foldlM_cons]
    have closes : step P shouldProcessData ((trees children).foldl (processRoot P shouldProcessData) opened)
        (.endElement mwsharvestExprName) =
        some { (trees children).foldl (processRoot P shouldProcessData) opened with state := .inMwsHarvest } := by
      simp only [step, endElement, expr, closed]
    rw [closes]
    rfl
  · have read : readChild W P shouldProcessData reading (.element mwsharvestExprName attrs children) =
        (trees children).foldl
          (readExpression P (attributeValue attrs mwsharvestExprAttrXmlidName mwsharvestExprUriDefault)
            (if shouldProcessData then crawlIdOf reading.answers (attributeValue attrs mwsharvestAttrLocalidName [])
              else crawlIdNull)) reading := by
      rw [readChild]
      exact if_pos rfl
    rw [read]
    exact ⟨⟨agreesAfter.processor, agreesAfter.calls, agreesAfter.answers, agreesAfter.named⟩, rfl, closed⟩

/-- An element in the harvest state that is skipped. -/
theorem foldlM_child_unknown (inHarvest : InHarvest data reading) {name : Str} {attrs : List (Str × Str)}
    {children : List XmlNode} {inner : List XmlEvent} (below : Delivered children inner) (skipped : Str)
    (unknown : startElement shouldProcessData data name attrs = goUnknown { data with localId := skipped }) :
    ∃ after, (.startElement name attrs :: (inner ++ [.endElement name])).foldlM (step P shouldProcessData) data =
        some after ∧ InHarvest after reading := by
  have run : inner.foldlM (step P shouldProcessData) (goUnknown { data with localId := skipped }) =
      some (goUnknown { data with localId := skipped }) :=
    foldlM_unknown { data with localId := skipped, prevState := data.state } inHarvest.closed below
  refine ⟨{ data with localId := skipped, prevState := data.state, unknownDepth := 0 }, ?_, ?_⟩
  · rw [List.foldlM_cons]
    show (List.foldlM _ (startElement shouldProcessData data name attrs) _) = _
    rw [unknown, List.foldlM_append, run, Option.bind_eq_bind, Option.bind_some]
    rfl
  · exact ⟨⟨inHarvest.processor, inHarvest.calls, inHarvest.answers, inHarvest.named⟩, inHarvest.state,
      inHarvest.closed⟩

/-- An `mws:data` element with a local id in the harvest state. -/
theorem foldlM_child_data (inHarvest : InHarvest data reading) {attrs : List (Str × Str)} {children : List XmlNode}
    {inner : List XmlEvent} (below : Delivered children inner)
    (named : attributeValue attrs mwsharvestAttrLocalidName [] ≠ []) :
    ∃ after, (.startElement mwsharvestDataName attrs :: (inner ++ [.endElement mwsharvestDataName])).foldlM
        (step P shouldProcessData) data = some after ∧
      InHarvest after (readChild W P shouldProcessData reading (.element mwsharvestDataName attrs children)) := by
  have opened : startElement shouldProcessData data mwsharvestDataName attrs =
      { { data with localId := attributeValue attrs mwsharvestAttrLocalidName [] } with
        state := .inMwsData, copyDepth := ((0 + 1 : Nat) : Int), stringWriter := W.new } := by
    unfold startElement
    rw [inHarvest.state]
    simp only [show mwsharvestDataName ≠ mwsharvestExprName by decide, if_false, if_true, named]
    rfl
  have run := @foldlM_data W σ P shouldProcessData
    { data with localId := attributeValue attrs mwsharvestAttrLocalidName [] } inHarvest.closed _ _ below 0 W.new
  rw [← opened] at run
  refine ⟨processCopied P shouldProcessData { data with
      localId := attributeValue attrs mwsharvestAttrLocalidName []
      state := .inMwsData
      copyDepth := 0
      stringWriter := W.endElement (writeForest W children W.new) }, ?_, ?_⟩
  · rw [List.foldlM_cons]
    show (List.foldlM _ (startElement shouldProcessData data mwsharvestDataName attrs) _) = _
    rw [List.foldlM_append, run, Option.bind_eq_bind, Option.bind_some]
    rfl
  · unfold readChild
    simp only [show mwsharvestDataName ≠ mwsharvestExprName by decide, if_false]
    cases shouldProcessData with
    | false =>
      simp only [Bool.false_eq_true, and_false, if_false]
      exact ⟨⟨inHarvest.processor, inHarvest.calls, inHarvest.answers, inHarvest.named⟩, rfl, inHarvest.closed⟩
    | true =>
      rw [if_pos ⟨trivial, named, rfl⟩]
      refine ⟨⟨?_, inHarvest.calls, ?_, ?_⟩, rfl, inHarvest.closed⟩
      · show (P.processData data.harvestProcessor (dataOf W children)).1 = _
        rw [inHarvest.processor]
      · show (if (P.processData data.harvestProcessor (dataOf W children)).2 ≠ crawlIdNull then
          (attributeValue attrs mwsharvestAttrLocalidName [],
            (P.processData data.harvestProcessor (dataOf W children)).2) :: data.localIdToCrawlIds
          else data.localIdToCrawlIds) = _
        rw [inHarvest.processor, inHarvest.answers, List.filter_append, List.filter_singleton]
        by_cases answered : (P.processData reading.processor (dataOf W children)).2 ≠ crawlIdNull
        · rw [if_pos answered, decide_eq_true answered, cond_true, List.reverse_append]
          rfl
        · rw [if_neg answered, decide_eq_false answered, cond_false, List.append_nil]
      · intro answer member
        rcases List.mem_append.mp member with old | new
        · exact inHarvest.named answer old
        · rw [List.mem_singleton.mp new]
          exact named

/-- **An element in the harvest state.** -/
theorem foldlM_child (inHarvest : InHarvest data reading) {name : Str} {attrs : List (Str × Str)}
    {children : List XmlNode} {inner : List XmlEvent} (below : Delivered children inner)
    (harmless : Harmless [.element name attrs children]) :
    ∃ after, (.startElement name attrs :: (inner ++ [.endElement name])).foldlM (step P shouldProcessData) data =
        some after ∧ InHarvest after (readChild W P shouldProcessData reading (.element name attrs children)) := by
  by_cases expr : name = mwsharvestExprName
  · subst expr
    exact foldlM_child_expr inHarvest attrs below (harmless attrs children List.mem_cons_self)
  by_cases isData : name = mwsharvestDataName
  · subst isData
    by_cases named : attributeValue attrs mwsharvestAttrLocalidName [] ≠ []
    · exact foldlM_child_data inHarvest below named
    · have skips : readChild W P shouldProcessData reading (.element mwsharvestDataName attrs children) = reading := by
        unfold readChild
        simp only [expr, if_false, named, false_and, and_false]
      rw [skips]
      refine foldlM_child_unknown inHarvest below (attributeValue attrs mwsharvestAttrLocalidName []) ?_
      unfold startElement
      rw [inHarvest.state]
      simp only [expr, if_false, if_true, if_pos (not_not.mp named)]
  · have skips : readChild W P shouldProcessData reading (.element name attrs children) = reading := by
      unfold readChild
      simp only [expr, if_false, isData, false_and]
    rw [skips]
    refine foldlM_child_unknown inHarvest below data.localId ?_
    simp only [startElement, inHarvest.state, expr, if_false, isData]
    rw [← inHarvest.state]

/-- **The machine over the children of `mws:harvest`**: it does what they ask for and is in the harvest state again. -/
theorem foldlM_harvest {forest : List XmlNode} {events : List XmlEvent} (delivered : Delivered forest events) :
    Harmless forest → ∀ {data : MwsHarvestSaxUserData W σ} {reading : Reading σ}, InHarvest data reading →
      ∃ after, events.foldlM (step P shouldProcessData) data = some after ∧
        InHarvest after (forest.foldl (readChild W P shouldProcessData) reading) := by
  induction delivered with
  | nil => intro _ data reading inHarvest; exact ⟨data, rfl, inHarvest⟩
  | @element name attrs children rest inner events below behind _ ih =>
    intro harmless data reading inHarvest
    have front : Harmless [.element name attrs children] := by
      intro attrs' children' member
      rw [List.mem_singleton] at member
      exact harmless attrs' children' (member ▸ List.mem_cons_self)
    obtain ⟨middle, run, inMiddle⟩ := @foldlM_child _ _ P shouldProcessData _ _ inHarvest _ _ _ _ below front
    obtain ⟨after, runRest, inAfter⟩ :=
      ih (fun attrs' children' member => harmless attrs' children' (List.mem_cons_of_mem _ member)) inMiddle
    refine ⟨after, ?_, inAfter⟩
    have split : (.startElement name attrs :: (inner ++ .endElement name :: events) : List XmlEvent) =
        (.startElement name attrs :: (inner ++ [.endElement name])) ++ events := by simp
    rw [split, List.foldlM_append, run, Option.bind_eq_bind, Option.bind_some, runRest]
  | @text chunks rest events some behind ih =>
    intro harmless data reading inHarvest
    have all := @foldlM_characters Char _ (step P shouldProcessData) Unit (fun _ => data) (fun held _ => held)
      (fun _ chunk => by simp only [step, characters, inHarvest.state]) (fun _ _ _ => rfl) chunks some ()
    rw [List.foldlM_append, all, Option.bind_eq_bind, Option.bind_some]
    exact ih (fun attrs children member => harmless attrs children (List.mem_cons_of_mem _ member)) inHarvest
  | error behind ih =>
    intro harmless data reading inHarvest
    have struck : step P shouldProcessData data .error = some data := by
      show some _ = some data
      rw [error, ← inHarvest.closed]
    rw [List.foldlM_cons, struck, Option.bind_eq_bind, Option.bind_some]
    exact ih (fun attrs children member => harmless attrs children (List.mem_cons_of_mem _ member)) inHarvest

end Children

/-! ### Whole documents -/

section Documents

variable {P : HarvestProcessor σ} {shouldProcessData : Bool}

/-- The root element in the default state. -/
theorem foldlM_root {data : MwsHarvestSaxUserData W σ} {processor : σ} (agrees : Agrees data ⟨processor, [], []⟩)
    (start : data.state = .default) (closed : data.currentToken = []) {name : Str} {attrs : List (Str × Str)}
    {children : List XmlNode} {inner : List XmlEvent} (below : Delivered children inner)
    (harmless : name = mwsharvestMainName → Harmless children) :
    ∃ after, (.startElement name attrs :: (inner ++ [.endElement name])).foldlM (step P shouldProcessData) data =
        some after ∧
      Agrees after (readDocument W P shouldProcessData processor name children) ∧ after.state = .default ∧
      after.currentToken = [] := by
  unfold readDocument
  by_cases main : name = mwsharvestMainName
  · have opened : startElement shouldProcessData data name attrs = { data with state := .inMwsHarvest } := by
      simp only [startElement, start, main, if_true]
    have inHarvest : InHarvest { data with state := .inMwsHarvest } ⟨processor, [], []⟩ :=
      ⟨⟨agrees.processor, agrees.calls, agrees.answers, agrees.named⟩, rfl, closed⟩
    obtain ⟨last, run, inLast⟩ := @foldlM_harvest W σ P shouldProcessData _ _ below (harmless main) _ _ inHarvest
    rw [if_pos main]
    refine ⟨{ last with state := .default }, ?_, ⟨inLast.processor, inLast.calls, inLast.answers, inLast.named⟩, rfl,
      inLast.closed⟩
    rw [List.foldlM_cons]
    show (List.foldlM _ (startElement shouldProcessData data name attrs) _) = _
    rw [opened, List.foldlM_append, run, Option.bind_eq_bind, Option.bind_some, List.foldlM_cons]
    have closes : step P shouldProcessData last (.endElement name) = some { last with state := .default } := by
      simp only [step, endElement, inLast.state]
    rw [closes]
    rfl
  · have opened : startElement shouldProcessData data name attrs = goUnknown data := by
      simp only [startElement, start, main, if_false]
    have run : inner.foldlM (step P shouldProcessData) (goUnknown data) = some (goUnknown data) :=
      foldlM_unknown { data with prevState := data.state } closed below
    rw [if_neg main]
    refine ⟨{ data with prevState := data.state, unknownDepth := 0 }, ?_,
      ⟨agrees.processor, agrees.calls, agrees.answers, agrees.named⟩, start, closed⟩
    rw [List.foldlM_cons]
    show (List.foldlM _ (startElement shouldProcessData data name attrs) _) = _
    rw [opened, List.foldlM_append, run, Option.bind_eq_bind, Option.bind_some]
    rfl

theorem agrees_init (processor : σ) : Agrees (W := W) (init processor) ⟨processor, [], []⟩ :=
  ⟨rfl, rfl, rfl, nofun⟩

/-- Inside a forest without errors there is none. -/
theorem hasErrors_of_mem {forest : List XmlNode} (clean : hasErrors forest = false) {name : Str}
    {attrs : List (Str × Str)} {children : List XmlNode} (member : .element name attrs children ∈ forest) :
    hasErrors children = false := by
  induction forest with
  | nil => cases member
  | cons node rest ih =>
    rw [hasErrors_cons, Bool.or_eq_false_iff] at clean
    rcases List.mem_cons.mp member with rfl | inside
    · rw [← hasError_element name attrs]
      exact clean.1
    · exact ih clean.2 inside

theorem harmless_of_clean {forest : List XmlNode} (clean : hasErrors forest = false) : Harmless forest :=
  fun _ _ outer _ _ _ inside => hasErrors_of_mem (hasErrors_of_mem clean outer) inside

/-- **The harvest reader implements its grammar.** On every document without errors, however its texts are chunked, the
reader comes to its end in the default state with no token open. It has called `processExpression` once, in document
order, for every element child of every `mws:expr` child of a root `mws:harvest`, with the tree of the element, the
`url` of the `mws:expr` and the crawl id that `processData` returned last for the `mws:data_id` (`readDocument`), and
with that has brought the processor to the state these calls lead to. -/
theorem processHarvest_document (P : HarvestProcessor σ) (shouldProcessData : Bool) (processor : σ) {name : Str}
    {attrs : List (Str × Str)} {children : List XmlNode} {events : List XmlEvent}
    (delivered : Delivered [.element name attrs children] events) (clean : hasErrors children = false) :
    ∃ data : MwsHarvestSaxUserData W σ, processHarvest P shouldProcessData events processor = some data ∧
      data.state = .default ∧ data.currentToken = [] ∧
      data.harvestProcessor = (readDocument W P shouldProcessData processor name children).processor ∧
      data.calls = (readDocument W P shouldProcessData processor name children).calls ∧
      data.calls.map (fun call => (call.1, call.2.1)) =
        if name = mwsharvestMainName then children.flatMap expressionsOf else [] := by
  cases delivered with
  | @element _ _ _ _ inner events below behind =>
    cases behind
    obtain ⟨data, run, agrees, final, closed⟩ := @foldlM_root W σ P shouldProcessData _ processor (agrees_init processor)
      rfl rfl name attrs children inner below fun _ => harmless_of_clean clean
    refine ⟨data, run, final, closed, agrees.processor, agrees.calls, ?_⟩
    rw [agrees.calls, readDocument]
    by_cases main : name = mwsharvestMainName
    · rw [if_pos main, if_pos main, calls_foldl_readChild]
      rfl
    · rw [if_neg main, if_neg main]
      rfl

end Documents

/-- A writer that only collects the text. -/
def plainWriter : TextWriter where
  Carrier := Str
  new := []
  startElement writer _ := writer
  writeAttribute writer _ := writer
  endElement writer := writer
  writeRaw writer text := writer ++ text
  endDocument writer := writer
  encodeSpecialChars text := text
  writeRaw_append _ _ _ := List.append_assoc _ _ _
  encodeSpecialChars_append _ _ := rfl

/-- A processor that numbers the data it is given and counts the expressions. -/
def countingProcessor : HarvestProcessor (Nat × Nat) where
  processExpression state _ _ _ := ((state.1, state.2 + 1), 1)
  processData state _ := ((state.1 + 1, state.2), state.1 + 1)

/-- A harvest with a datum `d` and an expression that refers to it. -/
def sampleHarvest : List XmlNode :=
  [.element mwsharvestDataName [(mwsharvestAttrLocalidName, ['d'])] [.text ['x', 'y']],
    .element mwsharvestExprName [(mwsharvestExprAttrXmlidName, ['u']), (mwsharvestAttrLocalidName, ['d'])]
      [.element ['m', ':', 'c', 'i'] [] [.text [' ', 'a']]]]

/-- The text of the datum comes in two chunks. -/
def sampleHarvestEvents : List XmlEvent :=
  [.startElement mwsharvestMainName [], .startElement mwsharvestDataName [(mwsharvestAttrLocalidName, ['d'])],
    .characters ['x'], .characters ['y'], .endElement mwsharvestDataName,
    .startElement mwsharvestExprName [(mwsharvestExprAttrXmlidName, ['u']), (mwsharvestAttrLocalidName, ['d'])],
    .startElement ['m', ':', 'c', 'i'] [], .characters [' ', 'a'], .endElement ['m', ':', 'c', 'i'],
    .endElement mwsharvestExprName, .endElement mwsharvestMainName]

theorem delivered_sampleHarvest : Delivered [.element mwsharvestMainName [] sampleHarvest] sampleHarvestEvents := by
  have ciText : Delivered [.text [' ', 'a']] [.characters [' ', 'a']] :=
    @Delivered.text Char [[' ', 'a']] _ _ (by simp) .nil
  have ci := Delivered.element ['m', ':', 'c', 'i'] [] ciText .nil
  have expr := Delivered.element mwsharvestExprName
    [(mwsharvestExprAttrXmlidName, ['u']), (mwsharvestAttrLocalidName, ['d'])] ci .nil
  have dataText : Delivered [.text ['x', 'y']] [.characters ['x'], .characters ['y']] :=
    @Delivered.text Char [['x'], ['y']] _ _ (by simp) .nil
  have datum := Delivered.element mwsharvestDataName [(mwsharvestAttrLocalidName, ['d'])] dataText expr
  exact Delivered.element mwsharvestMainName [] datum .nil

/-- The sample harvest has one expression, with the crawl id of its datum. -/
theorem processHarvest_sampleHarvest :
    ∃ data : MwsHarvestSaxUserData plainWriter (Nat × Nat),
      processHarvest countingProcessor true sampleHarvestEvents (0, 0) = some data ∧
        data.calls.map (fun call => (call.1.getTag, call.2)) = [(['c', 'i'], ['u'], 1)] := by
  obtain ⟨data, run, -, -, -, calls, -⟩ := processHarvest_document (W := plainWriter) countingProcessor true (0, 0)
    delivered_sampleHarvest (by decide)
  refine ⟨data, run, ?_⟩
  rw [calls]
  decide

end HarvestReader

end MathWebSearch
