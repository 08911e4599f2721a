/-
**Harvest documents** (what the files of `loadHarvests` say).

A harvest file holds a document, and the parser delivers it in some chunks. What a server has to know of the file is in
the document: nothing here runs the reader.

* `latestData`, `HarvestDocument.expressions` — the expressions of a document: the elements below the `mws:expr`
  children of the root, each with the `url` of its `mws:expr` and the contents of the latest `mws:data` before it that
  has its local id.
* `Delivers`, `documentExpressions` — files that hold documents, and the expressions of those that are loaded.
* `expressionsIn_document` — what the reader takes down of a document are its expressions (`processHarvest_document`).
* `harvestExpressions_documents` — so it is for directories of files.
-/

import MathWebSearch.Index.LoadedHarvests

namespace MathWebSearch

open HarvestReader EventStream

/-! ### Documents -/

section Documents

variable (W : TextWriter) (shouldProcessData : Bool)

/-- The local id and the contents of an `mws:data` element; one without an id says nothing. -/
def datumOf : XmlNode → Option (Str × Str)
  | .element name attrs children =>
    let localId := attributeValue attrs mwsharvestAttrLocalidName []
    if name = mwsharvestDataName ∧ localId ≠ [] ∧ shouldProcessData then some (localId, dataOf W children)
    else none
  | .text _ => none
  | .error => none

/-- The contents of the latest `mws:data` with a local id in a forest, or no data. -/
def latestData (forest : List XmlNode) (localId : Str) : Str :=
  (((forest.filterMap (datumOf W shouldProcessData)).filter fun datum => datum.1 = localId).getLast?.map
    Prod.snd).getD crawlDataNull

/-- The expressions in a child of `mws:harvest` that has children `before` it: all trees below an `mws:expr`. -/
def childExpressions (before : List XmlNode) : XmlNode → List (CmmlToken × Str × Str)
  | .element name attrs children =>
    if name = mwsharvestExprName then
      (trees children).map fun token =>
        (token, attributeValue attrs mwsharvestExprAttrXmlidName mwsharvestExprUriDefault,
          latestData W shouldProcessData before (attributeValue attrs mwsharvestAttrLocalidName []))
    else []
  | .text _ => []
  | .error => []

/-- The expressions in the children of `mws:harvest` behind others. -/
def expressionsBehind : List XmlNode → List XmlNode → List (CmmlToken × Str × Str)
  | _, [] => []
  | before, node :: rest =>
    childExpressions W shouldProcessData before node ++ expressionsBehind (before ++ [node]) rest

/-- A document, by its root element. -/
structure HarvestDocument where
  name : Str
  attrs : List (Str × Str)
  children : List XmlNode

/-- **The expressions of a document**, each with its `url` and its data; there are none below another root. -/
def HarvestDocument.expressions (document : HarvestDocument) : List (CmmlToken × Str × Str) :=
  if document.name = mwsharvestMainName then expressionsBehind W shouldProcessData [] document.children else []

/-- A file as it is on the disk; `document` is `none` when it cannot be opened. -/
structure DocumentFile where
  path : Str
  document : Option HarvestDocument

/-- **The parser delivers what is in a file**, in any chunks and without errors. Nothing is asked of a file that is not
loaded. -/
inductive Delivers (config : HarvesterConfiguration) : DocumentFile → HarvestFile → Prop
  | skipped {path document events} (other : hasSuffix path config.fileExtension = false) :
      Delivers config ⟨path, document⟩ ⟨path, events⟩
  | closed {path} : Delivers config ⟨path, none⟩ ⟨path, none⟩
  | opened {path document events}
      (delivered : Delivered [.element document.name document.attrs document.children] events)
      (clean : hasErrors document.children = false) :
      Delivers config ⟨path, some document⟩ ⟨path, some events⟩

/-- The documents of a directory that are loaded: those in files with the right extension, up to a file that cannot be
opened. -/
def loadedDocuments (config : HarvesterConfiguration) : List DocumentFile → List HarvestDocument
  | [] => []
  | file :: rest =>
    if hasSuffix file.path config.fileExtension then
      match file.document with
      | none => []
      | some document => document :: loadedDocuments config rest
    else loadedDocuments config rest

/-- **The expressions in the documents of a directory.** -/
def documentExpressions (config : HarvesterConfiguration) (files : List DocumentFile) :
    List (CmmlToken × Str × Str) :=
  (loadedDocuments config files).flatMap (HarvestDocument.expressions W (!config.shouldIgnoreData))

end Documents

/-! ### What is taken down -/

section Recording

variable {W : TextWriter} {shouldProcessData : Bool}

/-- The data in a forest. -/
def dataIn (W : TextWriter) (shouldProcessData : Bool) (forest : List XmlNode) : List (Str × Str) :=
  forest.filterMap (datumOf W shouldProcessData)

theorem dataIn_append_of_none {forest : List XmlNode} {node : XmlNode}
    (nothing : datumOf W shouldProcessData node = none) :
    dataIn W shouldProcessData (forest ++ [node]) = dataIn W shouldProcessData forest := by
  rw [dataIn, List.filterMap_append, List.filterMap_cons_none nothing]
  exact List.append_nil _

theorem dataIn_append_of_some {forest : List XmlNode} {node : XmlNode} {datum : Str × Str}
    (given : datumOf W shouldProcessData node = some datum) :
    dataIn W shouldProcessData (forest ++ [node]) = dataIn W shouldProcessData forest ++ [datum] := by
  rw [dataIn, List.filterMap_append, List.filterMap_cons_some given]
  rfl

/-- A datum has a local id. -/
theorem named_of_datumOf {node : XmlNode} {datum : Str × Str} (given : datumOf W shouldProcessData node = some datum) :
    datum.1 ≠ [] := by
  cases node with
  | element name attrs children =>
    unfold datumOf at given
    dsimp only at given
    split at given
    · rename_i isData
      obtain rfl := Option.some.inj given
      exact isData.2.1
    · cases given
  | text content => cases given
  | error => cases given

theorem named_of_mem_dataIn {forest : List XmlNode} {datum : Str × Str}
    (member : datum ∈ dataIn W shouldProcessData forest) : datum.1 ≠ [] := by
  obtain ⟨node, -, given⟩ := List.mem_filterMap.mp member
  exact named_of_datumOf given

/-- The recorder numbers texts from one. -/
def recordedAnswers (data : List (Str × Str)) : List (Str × CrawlId) :=
  data.mapIdx fun position datum => (datum.1, position + 1)

theorem recordedAnswers_append (data : List (Str × Str)) (datum : Str × Str) :
    recordedAnswers (data ++ [datum]) = recordedAnswers data ++ [(datum.1, data.length + 1)] := List.mapIdx_concat

/-- One more answer. -/
theorem crawlIdOf_append {localId : Str} (given : localId ≠ []) (answers : List (Str × CrawlId)) (name : Str)
    (number : Nat) : crawlIdOf (answers ++ [(name, number + 1)]) localId =
      if name = localId then number + 1 else crawlIdOf answers localId := by
  have notNull : number + 1 ≠ crawlIdNull := Nat.succ_ne_zero number
  rw [crawlIdOf, crawlIdOf, if_neg given, if_neg given, List.filter_append, List.filter_singleton]
  by_cases same : name = localId
  · rw [if_pos same, decide_eq_true ⟨same, notNull⟩, cond_true, List.getLast?_concat]
    rfl
  · rw [if_neg same, decide_eq_false fun both => same both.1, cond_false, List.append_nil]

/-- The number for a local id is the one of its latest datum. -/
theorem textOf_crawlIdOf {data : List (Str × Str)} (named : ∀ datum ∈ data, datum.1 ≠ []) (localId : Str)
    (more : List Str) : textOf (data.map Prod.snd ++ more) (crawlIdOf (recordedAnswers data) localId) =
      ((data.filter fun datum => datum.1 = localId).getLast?.map Prod.snd).getD crawlDataNull := by
  by_cases empty : localId = []
  · have nothing : (data.filter fun datum => datum.1 = localId) = [] := by
      rw [List.filter_eq_nil_iff]
      intro datum member
      rw [decide_eq_true_eq, empty]
      exact named datum member
    rw [nothing, crawlIdOf, if_pos empty]
    rfl
  induction data using List.reverseRecOn generalizing more with
  | nil =>
    rw [crawlIdOf, if_neg empty]
    rfl
  | append_singleton front datum ih =>
    rw [recordedAnswers_append, crawlIdOf_append empty, List.filter_append, List.filter_singleton, List.map_append,
      List.append_assoc]
    by_cases same : datum.1 = localId
    · -- the datum is the last one with the local id
      have position : front.length + 1 - 1 = (front.map Prod.snd).length := by rw [List.length_map]; rfl
      have notNull : ¬front.length + 1 = crawlIdNull := Nat.succ_ne_zero _
      rw [if_pos same, decide_eq_true same, cond_true, List.getLast?_concat, textOf, CrawlDb.stored, if_neg notNull,
        position, List.getElem?_append_right le_rfl, Nat.sub_self]
      rfl
    · rw [if_neg same, decide_eq_false same, cond_false, List.append_nil]
      exact ih (fun other member => named other (List.mem_append_left _ member)) _

/-- What has been taken down of the children so far. -/
structure Recorded (W : TextWriter) (shouldProcessData : Bool) (before : List XmlNode)
    (reading : Reading (List Str × List CmmlToken)) : Prop where
  texts : reading.processor.1 = (dataIn W shouldProcessData before).map Prod.snd
  answers : reading.answers = recordedAnswers (dataIn W shouldProcessData before)

/-- A call with the text of its number. -/
def taken (texts : List Str) (call : CmmlToken × Str × CrawlId) : CmmlToken × Str × Str :=
  (call.1, call.2.1, textOf texts call.2.2)

/-- The recorder's texts stay while expressions are processed. -/
theorem texts_foldl_readExpression (uri : Str) (crawlId : CrawlId) (tokens : List CmmlToken) :
    ∀ reading : Reading (List Str × List CmmlToken),
      (tokens.foldl (readExpression recorder uri crawlId) reading).processor.1 = reading.processor.1 := by
  induction tokens with
  | nil => intro reading; rfl
  | cons token rest ih => intro reading; rw [List.foldl_cons, ih]; rfl

variable {before : List XmlNode} {reading : Reading (List Str × List CmmlToken)}

/-- Where data are ignored there are none. -/
theorem dataIn_false (forest : List XmlNode) : dataIn W false forest = [] := by
  rw [dataIn, List.filterMap_eq_nil_iff]
  intro node _
  cases node with
  | element name attrs children => simp [datumOf]
  | text content => rfl
  | error => rfl

/-- An `mws:expr`: its expressions are taken down, each with the number of its data. -/
theorem Recorded.expr (recorded : Recorded W shouldProcessData before reading) {name : Str}
    (expr : name = mwsharvestExprName) (attrs : List (Str × Str)) (children : List XmlNode) :
    Recorded W shouldProcessData (before ++ [.element name attrs children])
        (readChild W recorder shouldProcessData reading (.element name attrs children)) ∧
      ∀ texts, (dataIn W shouldProcessData before).map Prod.snd <+: texts →
        (readChild W recorder shouldProcessData reading (.element name attrs children)).calls.map (taken texts) =
          reading.calls.map (taken texts) ++
            childExpressions W shouldProcessData before (.element name attrs children) := by
  obtain ⟨texts, answers⟩ := recorded
  have noDatum : datumOf W shouldProcessData (.element name attrs children) = none :=
    if_neg fun isData => absurd (expr.symm.trans isData.1) (by decide)
  have number : (if shouldProcessData then crawlIdOf reading.answers (attributeValue attrs mwsharvestAttrLocalidName [])
      else crawlIdNull) = crawlIdOf (recordedAnswers (dataIn W shouldProcessData before))
        (attributeValue attrs mwsharvestAttrLocalidName []) := by
    cases shouldProcessData with
    | true => rw [if_pos rfl, answers]
    | false =>
      rw [if_neg Bool.false_ne_true, dataIn_false, crawlIdOf]
      split
      · rfl
      · rfl
  have read : readChild W recorder shouldProcessData reading (.element name attrs children) =
      (trees children).foldl (readExpression recorder
        (attributeValue attrs mwsharvestExprAttrXmlidName mwsharvestExprUriDefault)
        (crawlIdOf (recordedAnswers (dataIn W shouldProcessData before))
          (attributeValue attrs mwsharvestAttrLocalidName []))) reading := by
    rw [← number]
    exact if_pos expr
  rw [read]
  refine ⟨⟨?_, ?_⟩, ?_⟩
  · rw [texts_foldl_readExpression, texts, dataIn_append_of_none noDatum]
  · rw [answers_foldl_readExpression, answers, dataIn_append_of_none noDatum]
  · rintro _ ⟨more, rfl⟩
    rw [calls_foldl_readExpression, List.map_append, List.map_map, childExpressions, if_pos expr]
    refine congrArg _ (List.map_congr_left fun token _ => ?_)
    show (token, _, _) = (token, _, _)
    rw [textOf_crawlIdOf fun datum member => named_of_mem_dataIn member]
    rfl

/-- A datum: its text is taken down, and its local id answered with the number of the text. -/
theorem Recorded.datum (recorded : Recorded W shouldProcessData before reading) {name : Str}
    {attrs : List (Str × Str)} {children : List XmlNode} (isData : name = mwsharvestDataName ∧
      attributeValue attrs mwsharvestAttrLocalidName [] ≠ [] ∧ shouldProcessData = true) :
    Recorded W shouldProcessData (before ++ [.element name attrs children])
        (readChild W recorder shouldProcessData reading (.element name attrs children)) ∧
      (readChild W recorder shouldProcessData reading (.element name attrs children)).calls = reading.calls := by
  obtain ⟨texts, answers⟩ := recorded
  have datum : datumOf W shouldProcessData (.element name attrs children) =
      some (attributeValue attrs mwsharvestAttrLocalidName [], dataOf W children) := if_pos isData
  have length : reading.processor.1.length = (dataIn W shouldProcessData before).length := by
    rw [texts, List.length_map]
  have notExpr : ¬name = mwsharvestExprName := fun expr => absurd (expr.symm.trans isData.1) (by decide)
  have read : readChild W recorder shouldProcessData reading (.element name attrs children) =
      { reading with
        processor := (reading.processor.1 ++ [dataOf W children], reading.processor.2)
        answers := reading.answers ++
          [(attributeValue attrs mwsharvestAttrLocalidName [], reading.processor.1.length + 1)] } := by
    unfold readChild
    simp only [if_neg notExpr, if_pos isData]
    rfl
  rw [read]
  refine ⟨⟨?_, ?_⟩, rfl⟩
  · rw [dataIn_append_of_some datum, List.map_append, texts]
    rfl
  · rw [dataIn_append_of_some datum, recordedAnswers_append, answers, length]

/-- **A child of `mws:harvest`**: its datum is taken down, and its expressions with their data. -/
theorem Recorded.child (recorded : Recorded W shouldProcessData before reading) (node : XmlNode) :
    Recorded W shouldProcessData (before ++ [node]) (readChild W recorder shouldProcessData reading node) ∧
      ∀ texts, (dataIn W shouldProcessData before).map Prod.snd <+: texts →
        (readChild W recorder shouldProcessData reading node).calls.map (taken texts) =
          reading.calls.map (taken texts) ++ childExpressions W shouldProcessData before node := by
  have skipped : ∀ {node : XmlNode}, datumOf W shouldProcessData node = none →
      Recorded W shouldProcessData (before ++ [node]) reading := fun nothing =>
    ⟨by rw [dataIn_append_of_none nothing]; exact recorded.texts,
      by rw [dataIn_append_of_none nothing]; exact recorded.answers⟩
  cases node with
  | element name attrs children =>
    by_cases expr : name = mwsharvestExprName
    · exact recorded.expr expr attrs children
    have noCalls : childExpressions W shouldProcessData before (.element name attrs children) = [] := if_neg expr
    by_cases isData : name = mwsharvestDataName ∧ attributeValue attrs mwsharvestAttrLocalidName [] ≠ [] ∧
        shouldProcessData = true
    · obtain ⟨next, calls⟩ :=
        @Recorded.datum W shouldProcessData before reading recorded name attrs children isData
      refine ⟨next, fun texts _ => ?_⟩
      rw [calls, noCalls, List.append_nil]
    · have read : readChild W recorder shouldProcessData reading (.element name attrs children) = reading := by
        unfold readChild
        simp only [if_neg expr, if_neg isData]
      rw [read]
      exact ⟨skipped (if_neg isData), fun texts _ => by rw [noCalls, List.append_nil]⟩
  | text content => exact ⟨skipped rfl, fun _ _ => (List.append_nil _).symm⟩
  | error => exact ⟨skipped rfl, fun _ _ => (List.append_nil _).symm⟩

/-- **The children of `mws:harvest`**: the texts so far are the first ones of all. -/
theorem Recorded.foldl (forest : List XmlNode) : ∀ {before : List XmlNode}
    {reading : Reading (List Str × List CmmlToken)}, Recorded W shouldProcessData before reading →
      Recorded W shouldProcessData (before ++ forest)
          (forest.foldl (readChild W recorder shouldProcessData) reading) ∧
        ∀ texts, (dataIn W shouldProcessData (before ++ forest)).map Prod.snd <+: texts →
          (forest.foldl (readChild W recorder shouldProcessData) reading).calls.map (taken texts) =
            reading.calls.map (taken texts) ++ expressionsBehind W shouldProcessData before forest := by
  induction forest with
  | nil =>
    intro before reading recorded
    exact ⟨by rwa [List.append_nil], fun _ _ => (List.append_nil _).symm⟩
  | cons node rest ih =>
    intro before reading recorded
    obtain ⟨next, here⟩ := recorded.child node
    obtain ⟨last, later⟩ := ih next
    rw [List.append_assoc, List.singleton_append] at last later
    refine ⟨last, fun texts inside => ?_⟩
    have front : (dataIn W shouldProcessData before).map Prod.snd <+: texts := by
      refine List.IsPrefix.trans ?_ inside
      rw [dataIn, dataIn, List.filterMap_append, List.map_append]
      exact List.prefix_append _ _
    rw [List.foldl_cons, later texts inside, here texts front, expressionsBehind, List.append_assoc]

end Recording

/-! ### From documents to files -/

section Files

variable {W : TextWriter} {config : HarvesterConfiguration}

/-- **What the reader takes down of a document are its expressions**, however it is delivered. -/
theorem expressionsIn_document (shouldProcessData : Bool) {document : HarvestDocument} {events : List XmlEvent}
    (delivered : Delivered [.element document.name document.attrs document.children] events)
    (clean : hasErrors document.children = false) :
    expressionsIn W shouldProcessData events = document.expressions W shouldProcessData := by
  obtain ⟨data, read, -, -, processor, calls, -⟩ :=
    processHarvest_document (W := W) recorder shouldProcessData ([], []) delivered clean
  have recorded : recording W shouldProcessData events = some data := read
  rw [expressionsIn, recorded, Option.map_some, Option.getD_some, processor, calls, readDocument,
    HarvestDocument.expressions]
  by_cases main : document.name = mwsharvestMainName
  · rw [if_pos main, if_pos main]
    obtain ⟨⟨texts, -⟩, taken⟩ :=
      @Recorded.foldl W shouldProcessData document.children [] ⟨([], []), [], []⟩ ⟨rfl, rfl⟩
    exact taken _ (by rw [texts])
  · rw [if_neg main, if_neg main]
    rfl

/-- A directory. -/
theorem harvestExpressions_document {documents : List DocumentFile} {files : List HarvestFile}
    (held : List.Forall₂ (Delivers config) documents files) :
    harvestExpressions W config files = documentExpressions W config documents := by
  rw [harvestExpressions, documentExpressions]
  induction held with
  | nil => rfl
  | cons holds _ ih =>
    rw [loadedFiles, loadedDocuments]
    cases holds with
    | skipped other =>
      rw [if_neg (ne_true_of_eq_false other), if_neg (ne_true_of_eq_false other)]
      exact ih
    | closed =>
      split
      · rfl
      · exact ih
    | opened delivered clean =>
      split
      · rw [List.flatMap_cons, List.flatMap_cons, expressionsIn_document _ delivered clean, ih]
      · exact ih

/-- **The expressions in files are those of the documents they hold.** -/
theorem harvestExpressions_documents {documents : List (List DocumentFile)} {directories : List (List HarvestFile)}
    (held : List.Forall₂ (List.Forall₂ (Delivers config)) documents directories) :
    directories.flatMap (harvestExpressions W config) = documents.flatMap (documentExpressions W config) := by
  induction held with
  | nil => rfl
  | cons holds _ ih => rw [List.flatMap_cons, List.flatMap_cons, harvestExpressions_document holds, ih]

end Files

end MathWebSearch
