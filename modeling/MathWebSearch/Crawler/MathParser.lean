/-
**Harvests of documents** (`crawler/parser/MathParser.cpp`, `crawler/parser/XmlParser.cpp`).

The text part of a document is written with the formulas in it replaced by their numbers, and every formula with an id
and with content is then emitted under the number of its id. The numbers are given out by the first traversal only,
which goes into no formula and stays inside the text part. A node is freed before it is read if a namespace node is
selected (`none`). libxml2 is a parameter, except for its trees; a document has fewer than `2 ^ 31` bytes.

* `dumpNodeToText_spec` — the text part, and the dictionary behind it.
* `createHarvestFromDocument_iff` — **when the local ids are unique**: at most one id of an emitted formula does not
  occur in the text, and a formula that does still has its id.
* `createHarvestFromDocument_nested` — formulas inside of a formula.
-/

import MathWebSearch.Index.MeaningDictionary
import MathWebSearch.Library.Dom
import MathWebSearch.Types.Decimal

namespace MathWebSearch

open CmmlToken IdDictionary Dom

namespace MathParser

/-! ### The code -/

/-- A node of a document. -/
abbrev XmlDocNode := Node Char

def mathName : Str := ['m', 'a', 't', 'h']
def idName : Str := ['i', 'd']
def xrefName : Str := ['x', 'r', 'e', 'f']
def encodingName : Str := ['e', 'n', 'c', 'o', 'd', 'i', 'n', 'g']
def contentEncoding : Str := ['M', 'a', 't', 'h', 'M', 'L', '-', 'C', 'o', 'n', 't', 'e', 'n', 't']

/-- `XPATH_MATHML`, and the test of `dumpNodeToText`. -/
def isMath : XmlDocNode → Bool
  | .element _ name _ _ => name = mathName
  | .text _ | .other _ => false

def isElement : XmlDocNode → Bool
  | .element .. => true
  | .text _ | .other _ => false

/-- A parsed document; the default values of attributes come from its document type. `parseDocument` takes the size of
the text as an `int`. -/
structure Document where
  forest : List XmlDocNode
  attributeDefault : XmlDocNode → Str → Option Str
  few : Node.countAll isMath forest < 2 ^ 31

/-- The first node of the result of an XPath expression. -/
inductive Selected where
  | nothing
  | node (place : Place)
  | attributeNode (value : Str)
  | namespaceNode

/-- What is used of libxml2 beyond the tree. -/
structure Libxml where
  xmlEncodeSpecialChars : Str → Str
  getXmlFromNode : XmlDocNode → Str
  getNodeByXpath : Document → Str → Selected

structure MetadataItem where
  name : Str
  xpath : Str

structure HarvesterConfiguration where
  shouldSaveData : Bool
  dataId : Str
  documentIdXpath : Str
  textWithMathXpath : Str
  metadataItems : List MetadataItem

/-- `MathIdDictionary`. -/
abbrev MathIdDictionary := IdDictionary Str

/-- What `dumpNodeToText` writes; of a formula, `label` is written behind `MATH_PREFIX`. -/
inductive Piece where
  | text (content : Str)
  | math (place : Place) (label : Str)

/-- `*stream`. -/
def streamText (pieces : List Piece) : Str :=
  pieces.flatMap fun
    | .text content => [' '] ++ content ++ [' ']
    | .math _ label => [' '] ++ mathName ++ label ++ [' ']

/-- `removeDuplicateSpaces`. -/
def removeDuplicateSpaces (str : Str) : Str := [' '].intercalate ((str.splitOnP isspace).filter (· ≠ []))

/-- `xmlGetProp`: namespaces are ignored. -/
def xmlGetProp (doc : Document) (node : XmlDocNode) (name : Str) : Option Str :=
  match node.attributes.find? fun prop => prop.name = name with
  | some prop => some prop.value
  | none => doc.attributeDefault node name

/-- `xmlUnsetProp`: only attributes without a namespace are removed. -/
def xmlUnsetProp (name : Str) (attributes : List (Attribute Char)) : List (Attribute Char) :=
  attributes.eraseP fun prop => !prop.namespaced && prop.name = name

mutual

def cleanContentMath : XmlDocNode → XmlDocNode
  | .element _ name attributes children =>
    .element none name (xmlUnsetProp xrefName (xmlUnsetProp idName attributes)) (cleanContentMaths children)
  | .text content => .text content
  | .other content => .other content

def cleanContentMaths : List XmlDocNode → List XmlDocNode
  | [] => []
  | node :: rest => cleanContentMath node :: cleanContentMaths rest

end

/-- The elements whose child nodes `dumpNodeToText` pushes. -/
def opens : XmlDocNode → Bool
  | .element _ name _ _ => name ≠ mathName
  | .text _ | .other _ => false

/-- One node of the loop of `dumpNodeToText`; without a dictionary the ids themselves are written. -/
def dumpNode (doc : Document) (state : List Piece × Option MathIdDictionary) (entry : Place × XmlDocNode) :
    List Piece × Option MathIdDictionary :=
  match entry.2 with
  | .text content => (state.1 ++ [.text content], state.2)
  | .element ns name attributes children =>
    if name = mathName then
      match xmlGetProp doc (.element ns name attributes children) idName with
      | none => state
      | some id =>
        match state.2 with
        | some encodedMathIds =>
          (state.1 ++ [.math entry.1 (toStr (encodedMathIds.put id).2)], some (encodedMathIds.put id).1)
        | none => (state.1 ++ [.math entry.1 id], none)
    else state
  | .other _ => state

/-- `dumpNodeToText`, from the child nodes of the root on. -/
def dumpNodeToText (doc : Document) (place : Place) (children : List XmlDocNode) (encodedMathIds : Option MathIdDictionary) :
    List Piece × Option MathIdDictionary :=
  walk opens (dumpNode doc) [siblings place 0 children] ([], encodedMathIds)

/-- `getTextByXpath`, before the spaces are removed. -/
def getTextByXpath (lib : Libxml) (doc : Document) (xpath : Str) (encodedMathIds : Option MathIdDictionary) :
    Option (List Piece × Option MathIdDictionary) :=
  match lib.getNodeByXpath doc xpath with
  | .nothing => some ([], encodedMathIds)
  | .node place => some (dumpNodeToText doc place (childrenAt doc.forest place) encodedMathIds)
  | .attributeNode value => some (dumpNodeToText doc [] [.text value] encodedMathIds)
  | .namespaceNode => none

/-- `getTextByXpath` without a dictionary, which is escaped wherever it is used. -/
def getText (lib : Libxml) (doc : Document) (xpath : Str) : Option Str :=
  (getTextByXpath lib doc xpath none).map fun result => removeDuplicateSpaces (streamText result.1)

/-- `descendant::*[@encoding='MathML-Content']`. -/
def isContent : XmlDocNode → Bool
  | .element _ _ attributes _ =>
    attributes.any fun prop =>
      !prop.namespaced && prop.name = encodingName && prop.value = contentEncoding
  | .text _ | .other _ => false

/-- `XPATH_CONTENT_MATH`: the first in document order is a child node of the first such element that has any. -/
def contentMath (mathNode : XmlDocNode) : Option (Place × XmlDocNode) :=
  ((visitsOf (fun _ => true) [] 0 mathNode.children).flatMap fun entry =>
    if isContent entry.2 then (siblings entry.1 0 entry.2.children).filter fun child => isElement child.2
    else []).head?

/-- A formula that is emitted: where it is, its id at that time, and the nodes that are written. -/
structure MathSource where
  place : Place
  id : Str
  mathNode : XmlDocNode
  cmmlNode : XmlDocNode

/-- The callback for a formula, as far as the document is concerned. -/
def processMath (doc : Document) (state : List XmlDocNode × List MathSource) (place : Place) :
    List XmlDocNode × List MathSource :=
  match nodeAt state.1 place with
  | none => state
  | some mathNode =>
    -- discarding elements without identifier
    match xmlGetProp doc mathNode idName with
    | none => state
    | some id =>
      -- discarding elements without content
      match contentMath mathNode with
      | none => state
      | some (below, cmmlNode) =>
        (modifyAt cleanContentMath state.1 (place ++ below),
          state.2 ++ [⟨place, id, mathNode, cleanContentMath cmmlNode⟩])

/-- The places of the formulas: `XPATH_MATHML`. -/
def mathPlaces (forest : List XmlDocNode) : List Place :=
  ((visitsOf (fun _ => true) [] 0 forest).filter fun entry => isMath entry.2).map Prod.fst

/-- **The formulas that are emitted.** -/
def mathSources (doc : Document) : List MathSource :=
  ((mathPlaces doc.forest).foldl (processMath doc) (doc.forest, [])).2

/-- A formula with the ids under which it is written. -/
structure MathElement where
  source : MathSource
  localId : Nat
  url : Str

/-- `Harvest`; `text` and `mathElements` are not returned, but say what is written. -/
structure Harvest where
  dataElement : Str
  contentMathElements : List Str
  text : List Piece
  mathElements : List MathElement

section Create

variable (lib : Libxml) (doc : Document) (path : Str) (config : HarvesterConfiguration)

/-- A formula of the data. -/
def mathData (element : MathElement) : Str :=
  "<math local_id=\"".toList ++ toStr element.localId ++ "\">".toList ++
    lib.xmlEncodeSpecialChars (lib.getXmlFromNode element.source.mathNode) ++ "</math>\n".toList

/-- A formula of the harvest. -/
def expression (element : MathElement) : Str :=
  "<mws:expr url=\"".toList ++ element.url ++ ['"'] ++
    (if config.shouldSaveData then " mws:data_id=\"".toList ++ config.dataId ++ ['"'] else []) ++ ['>'] ++
    lib.getXmlFromNode element.source.cmmlNode ++ "</mws:expr>\n".toList

/-- An item of the metadata. -/
def metadata (item : MetadataItem) : Option Str := do
  let text ← getText lib doc item.xpath
  return ['<'] ++ item.name ++ ['>'] ++ lib.xmlEncodeSpecialChars text ++ "</".toList ++ item.name ++ ">\n".toList

/-- `documentId`. -/
def documentIdOf : Option Str :=
  if config.documentIdXpath ≠ [] then getText lib doc config.documentIdXpath else some path

/-- The text part with `mathIdDictionary`, which stays empty without data. -/
def textPart : Option (List Piece × Option MathIdDictionary) :=
  if config.shouldSaveData then getTextByXpath lib doc config.textWithMathXpath (some .empty) else some ([], some .empty)

/-- The metadata. -/
def metadataPart : Option (List Str) :=
  if config.shouldSaveData then config.metadataItems.mapM (metadata lib doc) else some []

/-- A formula, with the number of its id. -/
def numberMath (documentId : Str) (mathIdDictionary : MathIdDictionary) (source : MathSource) : MathElement where
  source := source
  localId := mathIdDictionary.get source.id
  url := if config.shouldSaveData then toStr (mathIdDictionary.get source.id) else documentId ++ ['#'] ++ source.id

/-- The data of a document. -/
def dataElementOf (documentId : Str) (text : List Piece) (items : List Str) (mathElements : List MathElement) : Str :=
  "<mws:data mws:data_id=\"".toList ++ config.dataId ++ "\">\n<id>".toList ++ lib.xmlEncodeSpecialChars documentId ++
    "</id>\n<text>".toList ++ lib.xmlEncodeSpecialChars (removeDuplicateSpaces (streamText text)) ++
    "</text>\n<metadata>\n".toList ++ items.flatten ++ "</metadata>\n".toList ++ mathElements.flatMap (mathData lib) ++
    "</mws:data>\n".toList

/-- `createHarvestFromDocument`, behind `parseDocument`. -/
def createHarvestFromDocument : Option Harvest :=
  (documentIdOf lib doc path config).bind fun documentId => (textPart lib doc config).bind fun text =>
    (metadataPart lib doc config).map fun items =>
      let mathElements := (mathSources doc).map (numberMath config documentId (text.2.getD .empty))
      { dataElement := if config.shouldSaveData then dataElementOf lib config documentId text.1 items mathElements else []
        contentMathElements := mathElements.map (expression lib config)
        text := text.1
        mathElements }

end Create

/-! ### The text part -/

/-- The formulas with ids among nodes. -/
def mathIds (doc : Document) (entries : List (Place × XmlDocNode)) : List (Place × Str) :=
  entries.filterMap fun entry => if isMath entry.2 then (xmlGetProp doc entry.2 idName).map (Prod.mk entry.1) else none

/-- What is written for a formula. -/
def Piece.label : Piece → Option (Place × Str)
  | .text _ => none
  | .math place label => some (place, label)

theorem mem_labels {text : List Piece} {place : Place} {label : Str} :
    (place, label) ∈ text.filterMap Piece.label ↔ Piece.math place label ∈ text := by
  rw [List.mem_filterMap]
  refine ⟨fun ⟨piece, member, is⟩ => ?_, fun member => ⟨_, member, rfl⟩⟩
  cases piece with
  | text content => cases is
  | math place' label' =>
    obtain ⟨rfl, rfl⟩ := Prod.mk.inj (Option.some.inj is)
    exact member

/-- One node of the text part: a formula with an id is put into the dictionary. -/
theorem dumpNode_eq (doc : Document) (pieces : List Piece) (ids : MathIdDictionary) (entry : Place × XmlDocNode) :
    (∃ more, dumpNode doc (pieces, some ids) entry = (pieces ++ more, some ids) ∧ more.filterMap Piece.label = [] ∧
      mathIds doc [entry] = []) ∨
    ∃ id, dumpNode doc (pieces, some ids) entry =
        (pieces ++ [.math entry.1 (toStr (ids.put id).2)], some (ids.put id).1) ∧ mathIds doc [entry] = [(entry.1, id)] := by
  obtain ⟨place, node⟩ := entry
  cases node with
  | text content => exact Or.inl ⟨[.text content], rfl, rfl, rfl⟩
  | other content => exact Or.inl ⟨[], by rw [List.append_nil]; rfl, rfl, rfl⟩
  | element ns name attributes children =>
    unfold dumpNode mathIds isMath
    dsimp only
    by_cases math : name = mathName
    · rw [if_pos math]
      cases read : xmlGetProp doc (.element ns name attributes children) idName with
      | none =>
        refine Or.inl ⟨[], by rw [List.append_nil], rfl, ?_⟩
        rw [List.filterMap_cons, List.filterMap_nil, if_pos (decide_eq_true math)]
        simp only [read, Option.map_none]
      | some id =>
        refine Or.inr ⟨id, rfl, ?_⟩
        rw [List.filterMap_cons, List.filterMap_nil, if_pos (decide_eq_true math)]
        simp only [read, Option.map_some]
    · rw [if_neg math]
      refine Or.inl ⟨[], by rw [List.append_nil], rfl, ?_⟩
      rw [List.filterMap_cons, List.filterMap_nil, if_neg (by rw [decide_eq_true_iff]; exact math)]

theorem mathIds_cons (doc : Document) (entry : Place × XmlDocNode) (rest : List (Place × XmlDocNode)) :
    mathIds doc (entry :: rest) = mathIds doc [entry] ++ mathIds doc rest := by
  rw [mathIds, ← List.singleton_append, List.filterMap_append]
  rfl

/-- **The ids are put in document order**, and the numbers that come back are written. -/
theorem foldl_dumpNode (doc : Document) (entries : List (Place × XmlDocNode)) : ∀ (pieces : List Piece) (ids : MathIdDictionary),
    ∃ more, entries.foldl (dumpNode doc) (pieces, some ids) =
        (pieces ++ more, some (putAll ids ((mathIds doc entries).map Prod.snd)).1) ∧
      more.filterMap Piece.label = (mathIds doc entries).zipWith (fun math number => (math.1, toStr number))
        (putAll ids ((mathIds doc entries).map Prod.snd)).2 := by
  induction entries with
  | nil => exact fun pieces ids => ⟨[], by rw [List.append_nil]; rfl, rfl⟩
  | cons entry rest ih =>
    intro pieces ids
    rw [List.foldl_cons, mathIds_cons]
    rcases dumpNode_eq doc pieces ids entry with ⟨here, step, silent, none⟩ | ⟨id, step, one⟩
    · obtain ⟨more, run, labels⟩ := ih (pieces ++ here) ids
      refine ⟨here ++ more, ?_, ?_⟩
      · rw [step, run, none, List.nil_append, List.append_assoc]
      · rw [none, List.nil_append, List.filterMap_append, silent, List.nil_append, labels]
    · obtain ⟨more, run, labels⟩ := ih (pieces ++ [.math entry.1 (toStr (ids.put id).2)]) (ids.put id).1
      refine ⟨.math entry.1 (toStr (ids.put id).2) :: more, ?_, ?_⟩
      · rw [step, run, one, List.append_assoc, List.singleton_append, List.singleton_append, List.map_cons, putAll]
      · rw [one, List.singleton_append, List.map_cons, putAll, List.zipWith_cons_cons, List.filterMap_cons, labels]
        rfl

/-- The formulas of the text part: those that its root contains outside of other formulas. -/
def textMaths (lib : Libxml) (doc : Document) (config : HarvesterConfiguration) : List (Place × Str) :=
  match lib.getNodeByXpath doc config.textWithMathXpath with
  | .node place => mathIds doc (visitsOf opens place 0 (childrenAt doc.forest place))
  | .nothing | .attributeNode _ | .namespaceNode => []

theorem length_mathIds_le (doc : Document) (entries : List (Place × XmlDocNode)) :
    (mathIds doc entries).length ≤ entries.countP fun entry => isMath entry.2 := by
  induction entries with
  | nil => exact le_rfl
  | cons entry rest ih =>
    rw [mathIds_cons, List.length_append, List.countP_cons]
    have one : (mathIds doc [entry]).length ≤ if isMath entry.2 = true then 1 else 0 := by
      unfold mathIds
      rw [List.filterMap_cons, List.filterMap_nil]
      split_ifs with math
      · cases xmlGetProp doc entry.2 idName with
        | none => exact Nat.zero_le _
        | some id => exact le_rfl
      · exact le_rfl
    omega

/-- There are not too many ids for the dictionary. -/
theorem few_textMaths (lib : Libxml) (doc : Document) (config : HarvesterConfiguration) :
    ((textMaths lib doc config).map Prod.snd).toFinset.card < 2 ^ 32 - 1 := by
  refine lt_of_le_of_lt (List.toFinset_card_le _) ?_
  rw [List.length_map]
  have none : ([] : List (Place × Str)).length < 2 ^ 32 - 1 := by decide
  unfold textMaths
  cases lib.getNodeByXpath doc config.textWithMathXpath with
  | node place =>
    have all := length_mathIds_le doc (visitsOf opens place 0 (childrenAt doc.forest place))
    have here := countP_visitsOf_le opens isMath place (childrenAt doc.forest place) 0
    have below := countAll_childrenAt_le isMath place doc.forest
    exact lt_of_le_of_lt (all.trans (here.trans below)) (lt_trans doc.few (by decide))
  | nothing => exact none
  | attributeNode value => exact none
  | namespaceNode => exact none

/-- The dictionary behind the text part. -/
def textDictionary (lib : Libxml) (doc : Document) (config : HarvesterConfiguration) : MathIdDictionary :=
  (putAll empty ((textMaths lib doc config).map Prod.snd)).1

/-- **The text part**: every formula in it is replaced by the number of its id. -/
theorem getTextByXpath_spec {lib : Libxml} {doc : Document} {config : HarvesterConfiguration}
    (readable : lib.getNodeByXpath doc config.textWithMathXpath ≠ .namespaceNode) :
    ∃ text, getTextByXpath lib doc config.textWithMathXpath (some .empty) =
        some (text, some (textDictionary lib doc config)) ∧
      text.filterMap Piece.label = (textMaths lib doc config).map fun math =>
        (math.1, toStr ((textDictionary lib doc config).get math.2)) := by
  obtain ⟨keys, -, -, -, numbers⟩ := putAll_empty (few_textMaths lib doc config)
  have labels : ((textMaths lib doc config).zipWith (fun math number => (math.1, toStr number))
      (putAll empty ((textMaths lib doc config).map Prod.snd)).2) = (textMaths lib doc config).map fun math =>
        (math.1, toStr ((textDictionary lib doc config).get math.2)) := by
    rw [numbers, List.map_map, List.zipWith_map_right, List.zipWith_self]
    rfl
  rw [← labels]
  unfold getTextByXpath textDictionary textMaths
  cases selected : lib.getNodeByXpath doc config.textWithMathXpath with
  | namespaceNode => exact absurd selected readable
  | nothing => exact ⟨[], rfl, rfl⟩
  | attributeNode value =>
    refine ⟨[.text value], ?_, rfl⟩
    dsimp only
    rw [dumpNodeToText, walk_siblings]
    rfl
  | node place =>
    obtain ⟨text, run, written⟩ := foldl_dumpNode doc (visitsOf opens place 0 (childrenAt doc.forest place)) [] empty
    refine ⟨text, ?_, written⟩
    dsimp only
    rw [dumpNodeToText, walk_siblings, run, List.nil_append]

/-! ### Local ids -/

/-- The XPath expressions whose text is read. -/
def xpaths (config : HarvesterConfiguration) : List Str :=
  (if config.documentIdXpath ≠ [] then [config.documentIdXpath] else []) ++
    config.textWithMathXpath :: config.metadataItems.map MetadataItem.xpath

/-- No node is read that has been freed. -/
def Readable (lib : Libxml) (doc : Document) (config : HarvesterConfiguration) : Prop :=
  ∀ xpath ∈ xpaths config, lib.getNodeByXpath doc xpath ≠ .namespaceNode

/-- **Local ids are unique**: formulas share their number exactly when they share their id, and a formula in the text has
its number there. -/
structure UniqueIds (harvest : Harvest) : Prop where
  localIds : ∀ first ∈ harvest.mathElements, ∀ second ∈ harvest.mathElements,
    first.localId = second.localId ↔ first.source.id = second.source.id
  urls : ∀ first ∈ harvest.mathElements, ∀ second ∈ harvest.mathElements,
    first.url = second.url ↔ first.source.id = second.source.id
  text : ∀ element ∈ harvest.mathElements, ∀ label, Piece.math element.source.place label ∈ harvest.text →
    label = toStr element.localId

theorem getText_isSome {lib : Libxml} {doc : Document} {xpath : Str} :
    (getText lib doc xpath).isSome ↔ lib.getNodeByXpath doc xpath ≠ .namespaceNode := by
  unfold getText getTextByXpath
  cases lib.getNodeByXpath doc xpath <;> simp

/-- All items are read if each one is. -/
theorem isSome_mapM {β γ : Type} (f : β → Option γ) (items : List β) :
    (items.mapM f).isSome ↔ ∀ item ∈ items, (f item).isSome := by
  induction items with
  | nil => exact iff_of_true rfl fun item member => absurd member List.not_mem_nil
  | cons item rest ih =>
    rw [List.mapM_cons, List.forall_mem_cons, ← ih]
    cases f item with
    | none => simp
    | some value => cases rest.mapM f <;> simp

/-- The formulas of a harvest with data. -/
def numberedMaths (lib : Libxml) (doc : Document) (config : HarvesterConfiguration) : List MathElement :=
  (mathSources doc).map fun source => ⟨source, (textDictionary lib doc config).get source.id,
    toStr ((textDictionary lib doc config).get source.id)⟩

/-- **A harvest is made** unless a freed node is read. -/
theorem createHarvestFromDocument_isSome {lib : Libxml} {doc : Document} {path : Str} {config : HarvesterConfiguration}
    (saves : config.shouldSaveData = true) :
    (createHarvestFromDocument lib doc path config).isSome ↔ Readable lib doc config := by
  have text : (textPart lib doc config).isSome ↔ lib.getNodeByXpath doc config.textWithMathXpath ≠ .namespaceNode := by
    unfold textPart getTextByXpath
    rw [if_pos saves]
    cases lib.getNodeByXpath doc config.textWithMathXpath <;> simp
  have documentId : (documentIdOf lib doc path config).isSome ↔
      ∀ xpath ∈ (if config.documentIdXpath ≠ [] then [config.documentIdXpath] else []),
        lib.getNodeByXpath doc xpath ≠ .namespaceNode := by
    unfold documentIdOf
    split
    · rw [List.forall_mem_singleton, getText_isSome]
    · exact iff_of_true rfl fun xpath member => absurd member List.not_mem_nil
  have items : (metadataPart lib doc config).isSome ↔
      ∀ xpath ∈ config.metadataItems.map MetadataItem.xpath, lib.getNodeByXpath doc xpath ≠ .namespaceNode := by
    unfold metadataPart
    rw [if_pos saves, isSome_mapM, List.forall_mem_map]
    refine forall₂_congr fun item _ => ?_
    rw [← getText_isSome]
    unfold metadata
    cases getText lib doc item.xpath <;> simp
  unfold Readable xpaths createHarvestFromDocument
  rw [List.forall_mem_append, List.forall_mem_cons, ← documentId, ← text, ← items]
  cases documentIdOf lib doc path config with
  | none => simp
  | some documentId =>
    cases textPart lib doc config with
    | none => simp
    | some text => cases metadataPart lib doc config <;> simp

/-- **What a harvest with data says about its formulas.** -/
theorem createHarvestFromDocument_spec {lib : Libxml} {doc : Document} {path : Str} {config : HarvesterConfiguration}
    (saves : config.shouldSaveData = true) {harvest : Harvest}
    (created : createHarvestFromDocument lib doc path config = some harvest) :
    harvest.mathElements = numberedMaths lib doc config ∧
      harvest.text.filterMap Piece.label = (textMaths lib doc config).map fun math =>
        (math.1, toStr ((textDictionary lib doc config).get math.2)) := by
  have readable : Readable lib doc config := (createHarvestFromDocument_isSome saves).mp (by rw [created]; rfl)
  obtain ⟨text, dumped, labels⟩ := @getTextByXpath_spec lib doc config
    (readable _ (List.mem_append_right _ List.mem_cons_self))
  obtain ⟨documentId, -, created⟩ := Option.bind_eq_some_iff.mp created
  obtain ⟨text', part, created⟩ := Option.bind_eq_some_iff.mp created
  obtain ⟨items, -, rfl⟩ := Option.map_eq_some_iff.mp created
  rw [textPart, if_pos saves, dumped] at part
  obtain rfl := Option.some.inj part
  refine ⟨List.map_congr_left fun source _ => ?_, labels⟩
  rw [numberMath, if_pos saves]
  rfl

/-- **When the local ids are unique**: at most one id of an emitted formula does not occur in the text part, and every
emitted formula that does still has its id. -/
theorem createHarvestFromDocument_iff (lib : Libxml) (doc : Document) (path : Str) (config : HarvesterConfiguration)
    (saves : config.shouldSaveData = true) :
    (∃ harvest, createHarvestFromDocument lib doc path config = some harvest ∧ UniqueIds harvest) ↔
      Readable lib doc config ∧
      (∀ first ∈ mathSources doc, ∀ second ∈ mathSources doc, first.id ∉ (textMaths lib doc config).map Prod.snd →
        second.id ∉ (textMaths lib doc config).map Prod.snd → first.id = second.id) ∧
      ∀ source ∈ mathSources doc, ∀ id, (source.place, id) ∈ textMaths lib doc config → source.id = id := by
  obtain ⟨keys, members, -, numbered, -⟩ := putAll_empty (few_textMaths lib doc config)
  have numbered : (textDictionary lib doc config).Numbered keys := numbered
  -- ids in the text have numbers of their own, the others have none
  have number_eq : ∀ {id id'}, id ∈ keys → ((textDictionary lib doc config).get id = (textDictionary lib doc config).get id' ↔
      id = id') := by
    intro id id' known
    refine ⟨fun same => ?_, fun same => congrArg _ same⟩
    by_cases known' : id' ∈ keys
    · exact numbered.bijOn_get.injOn known known' same
    · rw [(get_eq_keyNotFound_iff numbered).mpr known'] at same
      exact absurd known ((get_eq_keyNotFound_iff numbered).mp same)
  have unknown : ∀ {id}, id ∉ (textMaths lib doc config).map Prod.snd → (textDictionary lib doc config).get id = keyNotFound :=
    fun absent => (get_eq_keyNotFound_iff numbered).mpr fun known => absent ((members _).mp known)
  constructor
  · rintro ⟨harvest, created, unique⟩
    obtain ⟨elements, labels⟩ := createHarvestFromDocument_spec saves created
    have listed : ∀ source ∈ mathSources doc, (⟨source, (textDictionary lib doc config).get source.id,
        toStr ((textDictionary lib doc config).get source.id)⟩ : MathElement) ∈ harvest.mathElements := by
      intro source member
      rw [elements]
      exact List.mem_map_of_mem member
    refine ⟨(createHarvestFromDocument_isSome saves).mp (by rw [created]; rfl), fun first member second member' absent absent' => ?_,
      fun source member id inText => ?_⟩
    · refine (unique.localIds _ (listed first member) _ (listed second member')).mp ?_
      exact (unknown absent).trans (unknown absent').symm
    · have written : Piece.math source.place (toStr ((textDictionary lib doc config).get id)) ∈ harvest.text := by
        rw [← mem_labels, labels]
        exact List.mem_map_of_mem inText
      have same := toStr_injective (unique.text _ (listed source member) _ written)
      exact ((number_eq ((members id).mpr (List.mem_map_of_mem inText))).mp same).symm
  · rintro ⟨readable, missing, kept⟩
    obtain ⟨harvest, created⟩ := Option.isSome_iff_exists.mp ((@createHarvestFromDocument_isSome lib doc path config saves).mpr readable)
    obtain ⟨elements, labels⟩ := createHarvestFromDocument_spec saves created
    have localIds : ∀ first ∈ mathSources doc, ∀ second ∈ mathSources doc,
        (textDictionary lib doc config).get first.id = (textDictionary lib doc config).get second.id ↔
          first.id = second.id := by
      intro first member second member'
      by_cases known : first.id ∈ keys
      · exact number_eq known
      · by_cases known' : second.id ∈ keys
        · rw [eq_comm, number_eq known', eq_comm]
        · exact iff_of_true (((get_eq_keyNotFound_iff numbered).mpr known).trans
            ((get_eq_keyNotFound_iff numbered).mpr known').symm)
            (missing first member second member' (fun inText => known ((members _).mpr inText))
              fun inText => known' ((members _).mpr inText))
    refine ⟨harvest, created, ?_, ?_, ?_⟩
    · rw [elements]
      intro first member second member'
      obtain ⟨source, listed, rfl⟩ := List.mem_map.mp member
      obtain ⟨source', listed', rfl⟩ := List.mem_map.mp member'
      exact localIds source listed source' listed'
    · rw [elements]
      intro first member second member'
      obtain ⟨source, listed, rfl⟩ := List.mem_map.mp member
      obtain ⟨source', listed', rfl⟩ := List.mem_map.mp member'
      exact toStr_injective.eq_iff.trans (localIds source listed source' listed')
    · rw [elements]
      intro element member label written
      obtain ⟨source, listed, rfl⟩ := List.mem_map.mp member
      rw [← mem_labels, labels] at written
      obtain ⟨math, inText, same⟩ := List.mem_map.mp written
      obtain ⟨place, rfl⟩ := Prod.mk.inj same
      rw [kept source listed math.2 (by rw [← place]; exact inText)]

/-! ### Formulas inside of formulas -/

/-- libxml2 on expressions that select the document, or nothing. -/
def plainLib : Libxml where
  xmlEncodeSpecialChars text := text
  getXmlFromNode _ := []
  getNodeByXpath _ xpath := if xpath = ['/'] then .node [] else .nothing

/-- The default configuration. -/
def rootConfig : HarvesterConfiguration := ⟨true, ['0'], [], ['/'], []⟩

/-- A formula with an id and content, and other nodes in it. -/
def sampleMath (id : Str) (others : List XmlDocNode) : XmlDocNode :=
  .element none mathName [⟨false, idName, id⟩]
    (.element none ['x'] [⟨false, encodingName, contentEncoding⟩] [.element none ['c', 'i'] [] []] :: others)

/-- Two formulas, one behind the other. -/
def flatDocument : Document := ⟨[sampleMath ['a'] [], sampleMath ['b'] []], fun _ _ => none, by decide⟩

theorem createHarvestFromDocument_flat : ∃ harvest,
    createHarvestFromDocument plainLib flatDocument [] rootConfig = some harvest ∧ UniqueIds harvest := by
  refine (createHarvestFromDocument_iff plainLib flatDocument [] rootConfig rfl).mpr ⟨?_, ?_, ?_⟩
  · intro xpath _ selected
    have selected : (if xpath = ['/'] then Selected.node [] else .nothing) = .namespaceNode := selected
    split at selected <;> cases selected
  · decide
  · have kept : ∀ source ∈ mathSources flatDocument, ∀ math ∈ textMaths plainLib flatDocument rootConfig,
        math.1 = source.place → source.id = math.2 := by decide
    exact fun source member id inText => kept source member (source.place, id) inText rfl

/-- Two formulas inside of a third one. -/
def nestedDocument : Document :=
  ⟨[sampleMath ['a'] [sampleMath ['b'] [], sampleMath ['c'] []]], fun _ _ => none, by decide⟩

/-- **Formulas inside of a formula** are not in the text, and share the number 0. -/
theorem createHarvestFromDocument_nested : ¬ ∃ harvest,
    createHarvestFromDocument plainLib nestedDocument [] rootConfig = some harvest ∧ UniqueIds harvest := by
  rintro ⟨harvest, created, unique⟩
  obtain ⟨elements, -⟩ := createHarvestFromDocument_spec rfl created
  have emitted : ∀ id ∈ [['b'], ['c']], ∃ element ∈ numberedMaths plainLib nestedDocument rootConfig,
      element.source.id = id ∧ element.localId = keyNotFound := by decide
  obtain ⟨first, member, id, number⟩ := emitted ['b'] List.mem_cons_self
  obtain ⟨second, member', id', number'⟩ := emitted ['c'] (List.mem_cons_of_mem _ List.mem_cons_self)
  rw [← elements] at member member'
  have same := (unique.localIds first member second member').mp (number.trans number'.symm)
  rw [id, id'] at same
  exact absurd same (by decide)

end MathParser

end MathWebSearch
