/-
**Loading harvests** (`loadHarvests`, `logIndexStatistics` and `loadHarvestFromFd` in `IndexBuilder.cpp`,
`TmpIndex::computeMemsectorSize`).

Every file of the directories is handed to the harvest reader, whose processor is the index builder; after each of them
the statistics of the index are logged. The directories are given by the files that the traversal delivers.

* `processHarvest_keeps` — an invariant rule for the harvest reader.
* `logIndexStatistics_shaped` — the statistics of a well-formed trie can be logged.
* `Loaded` — the index has grown by complete prefix codes, and the ids of its constants come from the dictionary.
* `indexContentMath_loaded`, `loadHarvestFromFd_loaded` — expressions that are well shaped keep it up.
-/

import MathWebSearch.Index.Enumeration
import MathWebSearch.Index.IndexBuilder
import MathWebSearch.Xmlparser.ProcessMwsHarvest

namespace MathWebSearch

open CmmlToken TmpIndexNode ExpressionEncoder IndexBuilder EventStream

/-! ### Statistics -/

namespace TmpIndex

/-- `memsector_inode_size`: the size of an `inode_t`, and of a dictionary entry for every child. -/
def memsectorInodeSize (numChildren : Nat) : Nat := (8 + numChildren * 8) % 2 ^ 32

/-- `memsector_leaf_size`. -/
def memsectorLeafSize : Nat := 8

/-- The callback `onPop` of `computeMemsectorSize`; `onPush` does nothing. -/
def addSize (size : Nat) : IteratorEvent TmpIterator → Option Nat
  | .onPush _ => some size
  | .onPop iterator => do
    let entry ← iterator.head?
    let numChildren := entry.2.children.length % 2 ^ 32
    return (size + if 0 < numChildren then memsectorInodeSize numChildren else memsectorLeafSize) % 2 ^ 64

variable (A : Accessor TmpIndex TmpIndexNode TmpIterator)

/-- `computeMemsectorSize`, over the accessor; the callbacks do not touch the iterator, and are called behind the loop
here. -/
def computeMemsectorSize (index : TmpIndex) (fuel : Nat) : Option Nat := do
  let (_, events, _) ← IndexIterator.enumerate A index fuel fuel (.start index.root)
  let size ← events.foldlM addSize 0
  return (size + memsectorInodeSize (index.root.children.length % 2 ^ 32)) % 2 ^ 64

/-- A leaf that `logIndexStatistics` has found. -/
def addSolutions (expressions : Nat) (entry : List TmpIterator × TmpIndexNode) : Option Nat := do
  let leaf ← entry.2.leaf
  return (expressions + leaf.solutions) % 2 ^ 64

/-- `logIndexStatistics`, over the accessor: the number of expressions, of unique expressions, and the size. -/
def logIndexStatistics (index : TmpIndex) (fuel : Nat) : Option (Nat × Nat × Nat) := do
  let indexSize ← index.computeMemsectorSize A fuel
  let (found, _, _) ← IndexIterator.enumerate A index fuel fuel (.start index.root)
  let expressions ← found.foldlM addSolutions 0
  return (expressions, found.length % 2 ^ 64, indexSize)

end TmpIndex

/-! ### Harvests -/

section Functions

variable {F C : Type} (databases : Databases F C)

/-- `HarvestIndexer`; its state is lost (`none`) when the builder runs into undefined behaviour or throws. -/
def harvestIndexer : HarvestProcessor (Option (IndexBuilder F C)) where
  processExpression state token exprUri crawlId :=
    match state.bind fun builder => builder.indexContentMath databases token exprUri crawlId with
    | some (builder, number) => (some builder, number)
    | none => (none, 0)
  processData state data :=
    match state.bind fun builder => builder.indexCrawlData databases data with
    | some (builder, crawlId) => (some builder, crawlId)
    | none => (none, crawlIdNull)

/-- `loadHarvestFromFd`: the builder and the number of expressions. -/
def loadHarvestFromFd (W : TextWriter) (builder : IndexBuilder F C) (events : List XmlEvent) (shouldProcessData : Bool) :
    Option (IndexBuilder F C × Nat) := do
  let data : MwsHarvestSaxUserData W (Option (IndexBuilder F C)) ←
    HarvestReader.processHarvest (harvestIndexer databases) shouldProcessData events (some builder)
  let builder ← data.harvestProcessor
  return (builder, data.parsedExpr)

/-- A file that the traversal of a directory delivers; `events` is `none` when it cannot be opened. -/
structure HarvestFile where
  path : Str
  events : Option (List XmlEvent)

/-- `HarvesterConfiguration`, with the log file opened. -/
structure HarvesterConfiguration where
  shouldIgnoreData : Bool
  fileExtension : Str
  logging : Bool

/-- `hasSuffix`. -/
def hasSuffix (path suffix : Str) : Bool := suffix.isSuffixOf path

/-- The variables of `loadHarvests`. -/
structure Loading (F C : Type) where
  indexBuilder : IndexBuilder F C
  numExpressions : Nat
  logFile : List (Nat × Nat × Nat)

variable (A : Accessor TmpIndex TmpIndexNode TmpIterator) (W : TextWriter) (config : HarvesterConfiguration) (fuel : Nat)

/-- Loading a file, if it has the right extension; the second component is false when it cannot be opened. -/
def loadFile (state : Loading F C) (file : HarvestFile) : Option (Loading F C × Bool) :=
  if hasSuffix file.path config.fileExtension then
    match file.events with
    | none => some (state, false)
    | some events => do
      let (indexBuilder, number) ← loadHarvestFromFd databases W state.indexBuilder events (!config.shouldIgnoreData)
      return ({ state with indexBuilder, numExpressions := (state.numExpressions + number) % 2 ^ 64 }, true)
  else some (state, true)

/-- Logging, if there is a log file. -/
def logFile (state : Loading F C) : Option (Loading F C) :=
  if config.logging then do
    let line ← state.indexBuilder.index.logIndexStatistics A fuel
    return { state with logFile := state.logFile ++ [line] }
  else some state

/-- The files of a directory; the traversal stops at a file that cannot be opened. -/
def loadDirectory : List HarvestFile → Loading F C → Option (Loading F C)
  | [], state => some state
  | file :: rest, state => do
    let (state, opened) ← loadFile databases W config state file
    if opened then
      let state ← logFile A config fuel state
      loadDirectory rest state
    else return state

/-- `loadHarvests`. -/
def loadHarvests (directories : List (List HarvestFile)) (indexBuilder : IndexBuilder F C) : Option (Loading F C) :=
  directories.foldlM (fun state files => loadDirectory databases A W config fuel files state) ⟨indexBuilder, 0, []⟩

end Functions

/-! ### An invariant rule for the harvest reader -/

namespace HarvestReader

variable {W : TextWriter} {σ : Type} {P : HarvestProcessor σ} {Inv : σ → Prop} {Good : CmmlToken → Prop}

/-- One event: the calls grow, and the invariant of the processor is kept when the expressions are good. -/
theorem step_keeps (expression : ∀ state token uri crawlId, Inv state → Good token →
      Inv (P.processExpression state token uri crawlId).1)
    (text : ∀ state data, Inv state → Inv (P.processData state data).1) {shouldProcessData : Bool}
    {data data' : MwsHarvestSaxUserData W σ} {event : XmlEvent}
    (stepped : step P shouldProcessData data event = some data') :
    (∃ more, data'.calls = data.calls ++ more) ∧ (Inv data.harvestProcessor → (∀ call ∈ data'.calls, Good call.1) →
      Inv data'.harvestProcessor) := by
  have kept : ∀ {other : MwsHarvestSaxUserData W σ}, some other = some data' → other.calls = data.calls →
      other.harvestProcessor = data.harvestProcessor →
      (∃ more, data'.calls = data.calls ++ more) ∧ (Inv data.harvestProcessor → (∀ call ∈ data'.calls, Good call.1) →
        Inv data'.harvestProcessor) := by
    intro other same calls processor
    obtain rfl := Option.some.inj same
    exact ⟨⟨[], by rw [List.append_nil]; exact calls⟩, fun inv _ => by rw [processor]; exact inv⟩
  cases event with
  | startElement name attrs =>
    refine kept stepped ?_ ?_
    · unfold startElement goUnknown
      simp only []
      split <;> (try split) <;> (try split) <;> (try split) <;> rfl
    · unfold startElement goUnknown
      simp only []
      split <;> (try split) <;> (try split) <;> (try split) <;> rfl
  | characters chunk =>
    refine kept stepped ?_ ?_
    · unfold characters
      split <;> (try split) <;> rfl
    · unfold characters
      split <;> (try split) <;> rfl
  | error => exact kept stepped rfl rfl
  | endElement name =>
    have stepped : endElement P shouldProcessData data = some data' := stepped
    unfold endElement at stepped
    split at stepped
    · cases stepped
    · exact kept stepped rfl rfl
    · split at stepped
      · exact kept stepped rfl rfl
      · -- the end tag of an expression
        rename_i root open'
        obtain rfl := Option.some.inj stepped
        refine ⟨⟨_, rfl⟩, fun inv good => expression _ _ _ _ inv (good
          (root.close, data.exprUri, crawlIdOfLocalId shouldProcessData data) ?_)⟩
        exact List.mem_append_right _ List.mem_cons_self
      · exact kept stepped rfl rfl
    · simp only [] at stepped
      split at stepped
      · -- the end tag of an `mws:data`
        obtain rfl := Option.some.inj stepped
        unfold processCopied
        simp only []
        split
        · exact ⟨⟨[], (List.append_nil _).symm⟩, fun inv _ => text _ _ inv⟩
        · exact ⟨⟨[], (List.append_nil _).symm⟩, fun inv _ => inv⟩
      · exact kept stepped rfl rfl
    · simp only [] at stepped
      refine kept stepped ?_ ?_
      · split <;> rfl
      · split <;> rfl

/-- The calls grow along a harvest. -/
theorem calls_foldlM {shouldProcessData : Bool} (events : List XmlEvent) : ∀ {data data' : MwsHarvestSaxUserData W σ},
    events.foldlM (step P shouldProcessData) data = some data' → ∃ more, data'.calls = data.calls ++ more := by
  induction events with
  | nil =>
    intro data data' ran
    obtain rfl := Option.some.inj ran
    exact ⟨[], (List.append_nil _).symm⟩
  | cons event rest ih =>
    intro data data' ran
    rw [List.foldlM_cons, Option.bind_eq_bind, Option.bind_eq_some_iff] at ran
    obtain ⟨next, stepped, later⟩ := ran
    obtain ⟨⟨more, grown⟩, -⟩ := @step_keeps W σ P (fun _ => True) (fun _ => True) (fun _ _ _ _ _ _ => trivial)
      (fun _ _ _ => trivial) _ _ _ _ stepped
    obtain ⟨more', grown'⟩ := ih later
    exact ⟨more ++ more', by rw [grown', grown, List.append_assoc]⟩

/-- **What every call of the processor keeps, a whole harvest keeps.** -/
theorem processHarvest_keeps (expression : ∀ state token uri crawlId, Inv state → Good token →
      Inv (P.processExpression state token uri crawlId).1)
    (text : ∀ state data, Inv state → Inv (P.processData state data).1) {shouldProcessData : Bool}
    (events : List XmlEvent) : ∀ {data data' : MwsHarvestSaxUserData W σ},
      events.foldlM (step P shouldProcessData) data = some data' → Inv data.harvestProcessor →
      (∀ call ∈ data'.calls, Good call.1) → Inv data'.harvestProcessor := by
  induction events with
  | nil =>
    intro data data' ran inv _
    obtain rfl := Option.some.inj ran
    exact inv
  | cons event rest ih =>
    intro data data' ran inv good
    rw [List.foldlM_cons, Option.bind_eq_bind, Option.bind_eq_some_iff] at ran
    obtain ⟨next, stepped, later⟩ := ran
    obtain ⟨-, keeps⟩ := step_keeps expression text stepped
    obtain ⟨more, grown⟩ := calls_foldlM rest later
    refine ih later (keeps inv fun call member => good call ?_) good
    rw [grown]
    exact List.mem_append_left _ member

end HarvestReader

/-! ### Statistics of a well-formed trie -/

namespace TmpIndex

open IndexIterator

/-- The virtual calls of a walk are made with iterators that stand at an entry. -/
theorem current_of_mem_calls (node : TmpIndexNode) : ∀ (opened : Nat) (stack : List TmpIterator),
    ∀ event ∈ calls (traceBelow node opened stack), ∃ entry rest, event = .onPush (entry :: rest) ∨
      event = .onPop (entry :: rest) := by
  induction node with
  | mk leaf children ih =>
    intro opened stack event member
    cases opened with
    | zero =>
      rw [traceBelow_zero] at member
      cases member
    | succ opened =>
      rw [traceBelow_succ, children_mk] at member
      clear leaf
      induction children with
      | nil => cases member
      | cons entry rest ihRest =>
        obtain ⟨token, node⟩ := entry
        rw [traceOf, calls_call, calls_append, calls_call] at member
        rcases List.mem_cons.mp member with rfl | member
        · exact ⟨_, _, Or.inl rfl⟩
        · rcases List.mem_append.mp member with member | member
          · exact ih (token, node) List.mem_cons_self _ _ event member
          · rcases List.mem_cons.mp member with rfl | member
            · exact ⟨_, _, Or.inr rfl⟩
            · exact ihRest (fun other inside => ih other (List.mem_cons_of_mem _ inside)) member

/-- **The iterator on a well-formed trie** never stands behind the end of a vector and never asks a leaf for its children,
and what it returns are leaves. -/
theorem enumerate_leaves {index : TmpIndex} (shape : WellFormed 1 index.root) :
    ∃ enough found, (∀ entry ∈ found, ∃ leaf, entry.2 = leafNode leaf) ∧ ∀ fuel, enough ≤ fuel →
      enumerate strictAccessor index fuel fuel (start index.root) =
        some (found, calls (traceBelow index.root 1 []), ⟨[], 1, some index.root⟩) := by
  obtain ⟨enough, found, returned, run⟩ := @enumerates_start index 0 index.root shape
  refine ⟨enough, found, fun entry member => ?_, fun fuel more => run fuel fuel more more⟩
  have inside : (spelled entry.1, entry.2) ∈ index.root.terms 1 := by
    have listed := List.mem_map_of_mem (f := fun entry => (spelled entry.1, entry.2)) member
    rw [returned, yields_traceBelow] at listed
    obtain ⟨term, among, same⟩ := List.mem_map.mp listed
    exact same ▸ among
  exact (@wellFormed_of_mem_terms 0 index.root 1 shape _ _ inside).eq_leafNode

/-- **The statistics of a well-formed trie can be logged.** -/
theorem logIndexStatistics_shaped {index : TmpIndex} (shape : WellFormed 1 index.root) :
    ∃ enough line, ∀ fuel, enough ≤ fuel → index.logIndexStatistics strictAccessor fuel = some line ∧
      index.logIndexStatistics tmpIndexAccessor fuel = some line := by
  obtain ⟨enough, found, leaves, run⟩ := enumerate_leaves shape
  have sizes : ∀ size, ∀ event ∈ calls (traceBelow index.root 1 []), (addSize size event).isSome := by
    intro size event member
    obtain ⟨entry, rest, rfl | rfl⟩ := current_of_mem_calls index.root 1 [] event member
    · rfl
    · rfl
  obtain ⟨size, sized⟩ := Option.isSome_iff_exists.mp (Fuel.isSome_foldlM _ sizes 0)
  have counts : ∀ expressions, ∀ entry ∈ found, (addSolutions expressions entry).isSome := by
    intro expressions entry member
    obtain ⟨leaf, same⟩ := leaves entry member
    rw [addSolutions, same]
    rfl
  obtain ⟨expressions, counted⟩ := Option.isSome_iff_exists.mp (Fuel.isSome_foldlM found counts 0)
  have logged : ∀ (A : Accessor TmpIndex TmpIndexNode TmpIterator) (fuel : Nat),
      enumerate A index fuel fuel (start index.root) =
        some (found, calls (traceBelow index.root 1 []), ⟨[], 1, some index.root⟩) →
      index.logIndexStatistics A fuel = some (expressions, found.length % 2 ^ 64,
        (size + memsectorInodeSize (index.root.children.length % 2 ^ 32)) % 2 ^ 64) := by
    intro A fuel enumerated
    simp only [logIndexStatistics, computeMemsectorSize, enumerated, Option.bind_eq_bind, Option.bind_some, sized,
      counted, Option.pure_def]
  refine ⟨enough, _, fun fuel more => ⟨logged _ fuel (run fuel more), logged _ fuel ?_⟩⟩
  exact enumerate_of_strict fuel (run fuel more)

end TmpIndex

/-! ### Indexes that are loaded -/

namespace IndexBuilder

variable {F C : Type} {databases : Databases F C}

/-- **The index has grown by complete prefix codes**, and the ids of its constants come from the dictionary. -/
def Loaded (builder : IndexBuilder F C) : Prop :=
  ∃ formulas puts, builder.index.Grown formulas ∧ builder.meaningDictionary = (IdDictionary.putAll .empty puts).1 ∧
    ∀ formula ∈ formulas, ∀ token ∈ formula, token.arity = 0 → Stems puts token

/-- A builder of an empty index. -/
theorem loaded_new (formulaDb : F) (crawlDb : Option C) (options : EncoderConfig) (nextId : Nat) :
    Loaded ⟨formulaDb, crawlDb, .empty nextId, .empty, options⟩ :=
  ⟨[], [], .empty nextId, rfl, fun _ member => by cases member⟩

/-- Inserting a complete prefix code. -/
theorem insertEncoding_grown {formulas : List EncodedFormula} {state : Indexing F C}
    (grown : state.builder.index.Grown formulas) (xmlId : Str) (crawlId : CrawlId) (token : Located)
    {formula : EncodedFormula} (complete : formula.IsPrefixCode) :
    ∃ state', insertEncoding databases xmlId crawlId state token formula = some state' ∧
      state'.builder.index.Grown (formulas ++ [formula]) := by
  obtain ⟨index, leaf, inserted, grown', stored, -⟩ := grown.insertData_next complete
  rw [insertEncoding, inserted]
  by_cases known : leaf.id ∈ state.uniqueFormulaIds
  · exact ⟨_, if_pos known, grown'⟩
  · exact ⟨_, if_neg known, .addSolution grown' stored⟩

/-- Inserting complete prefix codes one after the other. -/
theorem insertEncodings_grown (xmlId : Str) (crawlId : CrawlId) (entries : List (Located × EncodedFormula)) :
    ∀ {formulas : List EncodedFormula} {state : Indexing F C}, state.builder.index.Grown formulas →
      (∀ entry ∈ entries, entry.2.IsPrefixCode) →
      ∃ state', insertEncodings databases xmlId crawlId entries state = some state' ∧
        state'.builder.index.Grown (formulas ++ entries.map Prod.snd) := by
  induction entries with
  | nil =>
    intro formulas state grown _
    exact ⟨state, rfl, by rw [List.map_nil, List.append_nil]; exact grown⟩
  | cons entry rest ih =>
    intro formulas state grown complete
    obtain ⟨next, inserted, grown'⟩ := @insertEncoding_grown F C databases formulas state grown xmlId crawlId entry.1
      entry.2 (complete entry List.mem_cons_self)
    obtain ⟨state', later, grownLater⟩ := ih grown' fun other member => complete other (List.mem_cons_of_mem _ member)
    refine ⟨state', ?_, ?_⟩
    · rw [insertEncodings_cons, inserted]
      exact later
    · rw [List.map_cons, ← List.singleton_append, ← List.append_assoc]
      exact grownLater

/-- **An expression that is well shaped is indexed.** -/
theorem indexContentMath_loaded {self : IndexBuilder F C} (loaded : self.Loaded) {tree : CmmlToken}
    (shaped : WellShaped tree) (xmlId : Str) (crawlId : CrawlId) :
    ∃ self' number, self.indexContentMath databases tree xmlId crawlId = some (self', number) ∧ self'.Loaded := by
  obtain ⟨formulas, puts, grown, dictionary, stems⟩ := loaded
  obtain ⟨state, inserted, grown'⟩ := @insertEncodings_grown F C databases xmlId crawlId
    (encodings self.indexingOptions self.meaningDictionary tree) formulas
    ⟨self, .new self.meaningDictionary, [], 0⟩ grown fun entry member => isPrefixCode_of_mem_encodings shaped member
  obtain ⟨more, dictionary', stems'⟩ := @encodingsFrom_stems self.indexingOptions (foreachSubexpression tree) puts
    (.new self.meaningDictionary) dictionary
  refine ⟨{ state.builder with
    meaningDictionary := dictionaryAfter self.indexingOptions self.meaningDictionary tree }, state.numSubExpressions,
    ?_, _, puts ++ more, grown', dictionary', ?_⟩
  · rw [indexContentMath_eq, inserted]
    rfl
  · intro formula member token inside flat
    rcases List.mem_append.mp member with old | new
    · exact (stems formula old token inside flat).append more
    · obtain ⟨entry, among, rfl⟩ := List.mem_map.mp new
      exact stems' entry among token inside flat

/-- Crawl data do not touch the index. -/
theorem indexCrawlData_loaded {self : IndexBuilder F C} (loaded : self.Loaded) {crawlData : Str}
    {result : IndexBuilder F C × CrawlId} (stored : self.indexCrawlData databases crawlData = some result) :
    result.1.Loaded := by
  unfold indexCrawlData at stored
  split at stored
  · obtain ⟨put, -, same⟩ := Option.bind_eq_some_iff.mp stored
    rw [← Option.some.inj same]
    exact loaded
  · rw [← Option.some.inj stored]
    exact loaded

/-- **A harvest with expressions that are well shaped** leaves a loaded index, when it is loaded. -/
theorem loadHarvestFromFd_loaded {W : TextWriter} {builder : IndexBuilder F C} (loaded : builder.Loaded)
    {events : List XmlEvent} {shouldProcessData : Bool}
    (shaped : ∀ data : MwsHarvestSaxUserData W (Option (IndexBuilder F C)),
      HarvestReader.processHarvest (harvestIndexer databases) shouldProcessData events (some builder) = some data →
        ∀ call ∈ data.calls, WellShaped call.1)
    {result : IndexBuilder F C × Nat}
    (done : loadHarvestFromFd databases W builder events shouldProcessData = some result) : result.1.Loaded := by
  obtain ⟨data, read, later⟩ := Option.bind_eq_some_iff.mp done
  obtain ⟨builder', after, same⟩ := Option.bind_eq_some_iff.mp later
  have kept : ∀ builder, data.harvestProcessor = some builder → builder.Loaded := by
    refine @HarvestReader.processHarvest_keeps W _ (harvestIndexer databases)
      (fun state => ∀ builder, state = some builder → builder.Loaded) WellShaped ?_ ?_ shouldProcessData events _ _ read
      (fun other same => Option.some.inj same ▸ loaded) (shaped data read)
    · rintro state token uri crawlId before good builder' computed
      cases state with
      | none => cases computed
      | some builder =>
        obtain ⟨next, number, indexed, loaded'⟩ :=
          @indexContentMath_loaded F C databases _ (before builder rfl) _ good uri crawlId
        simp only [harvestIndexer, Option.bind_some, indexed, Option.some.injEq] at computed
        exact computed ▸ loaded'
    · rintro state text before builder' computed
      cases state with
      | none => cases computed
      | some builder =>
        cases stored : builder.indexCrawlData databases text with
        | none =>
          simp only [harvestIndexer, Option.bind_some, stored] at computed
          cases computed
        | some result =>
          simp only [harvestIndexer, Option.bind_some, stored, Option.some.injEq] at computed
          exact computed ▸ indexCrawlData_loaded (before builder rfl) stored
  rw [← Option.some.inj same]
  exact kept builder' after

/-- An index that is not empty is a well-formed trie. -/
theorem Loaded.wellFormed {builder : IndexBuilder F C} (loaded : builder.Loaded) (nonempty : ¬ builder.index.IsEmpty) :
    WellFormed 1 builder.index.root := by
  obtain ⟨formulas, puts, grown, -, -⟩ := loaded
  rcases grown.shaped with new | shape
  · exact absurd (by rw [TmpIndex.IsEmpty, new]; rfl) nonempty
  · exact shape

end IndexBuilder

end MathWebSearch
