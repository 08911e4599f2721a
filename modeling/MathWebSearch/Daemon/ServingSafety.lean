/-
**Serving an index** (`HarvestQueryHandler`, `IndexQueryHandler`, `loadHarvests`).

The iterators take it for granted that a node they enter has children. What a program does to an index is a sequence of
actions: it loads files, logs statistics, and answers queries over the index or over its exported image.

* `loadHarvests_eq` — `loadHarvests` is such a sequence.
* `Meets` — under which condition an action is safe.
* `act_reached` — in every state that is reached by actions that meet their conditions, every further one that does goes
  through: no token is read behind the end of a vector, and no leaf is asked for its children.
* `act_emptyIndex` — over an empty index this fails, and for a variable with a child node it fails, too.
-/

import MathWebSearch.Daemon.QueryHandlers
import MathWebSearch.Index.HarvestLoading
import MathWebSearch.Query.ExportedSearch
import MathWebSearch.Query.QueryEncoding

namespace MathWebSearch

open CmmlToken TmpIndexNode ExpressionEncoder IndexBuilder SearchContext

/-! ### Actions -/

/-- The query tree is encoded and, if it can be, searched for: the common part of the handlers. -/
def answerQuery (D : Doubles) {Index Node Iterator : Type} (A : Accessor Index Node Iterator) (index : Index)
    (dictionary : MeaningDictionary) (encoding : EncoderConfig) (answers : DbQuery) (mwsQuery : Query)
    (token : CmmlToken) (fuel : Nat) : Option MwsAnswset :=
  let (encodedQuery, queryInfo, rv) := encodeQuery D encoding dictionary token
  if rv = 0 then
    (SearchContext.new encodedQuery mwsQuery.options queryInfo.rangeBounds (some dictionary)).getResult A index answers
      fuel (castUnsigned mwsQuery.attrResultLimitMin) (castUnsigned mwsQuery.attrResultMaxSize)
      (unsignedOfInt mwsQuery.attrResultTotalReqNr)
  else some MwsAnswset.empty

/-- This is what `HarvestQueryHandler` does with the first tree of a query. -/
theorem HarvestQueryHandler.handleQuery_eq (D : Doubles) (self : HarvestQueryHandler) (fuel : Nat) (mwsQuery : Query) :
    self.handleQuery D fuel mwsQuery = mwsQuery.tokens.head?.bind fun token =>
      (answerQuery D tmpIndexAccessor self.index self.meaningDictionary self.encodingConfig
        (DbQueryManager.ofMemory self.crawlDb self.formulaDb).answers mwsQuery token fuel).map
        (withQvars D (encodeQuery D self.encodingConfig self.meaningDictionary token).2.1) := by
  rw [HarvestQueryHandler.handleQuery, Option.bind_eq_bind]
  congr 1
  funext token
  rw [Option.map_eq_bind]
  rfl

/-- What a program does to the index it has. -/
inductive Action where
  | load (file : HarvestFile)
  | log
  | search (mwsQuery : Query) (token : CmmlToken) (answers : DbQuery)
  | searchExported (longOffStart : Nat) (mwsQuery : Query) (token : CmmlToken) (answers : DbQuery)

section Actions

variable (D : Doubles) {F C : Type} (databases : Databases F C) (A : Accessor TmpIndex TmpIndexNode TmpIterator)
  (W : TextWriter) (config : HarvesterConfiguration)

/-- An action; answers are given away. -/
def act (fuel : Nat) (state : Loading F C) : Action → Option (Loading F C)
  | .load file => (loadFile databases W config state file).map Prod.fst
  | .log => logFile A config fuel state
  | .search mwsQuery token answers =>
    (answerQuery D A state.indexBuilder.index state.indexBuilder.meaningDictionary state.indexBuilder.indexingOptions
      answers mwsQuery token fuel).map fun _ => state
  | .searchExported longOffStart mwsQuery token answers => do
    let (_, file) ← state.indexBuilder.index.exportToMemsector longOffStart fuel Memsector.create
    let header ← Memsector.load file
    let _ ← answerQuery D indexAccessor ⟨file, Memsector.getRoot header⟩ state.indexBuilder.meaningDictionary
      state.indexBuilder.indexingOptions answers mwsQuery token fuel
    return state

/-- The actions of `loadHarvests` for the files of a directory. -/
def actionsOf : List HarvestFile → List Action
  | [] => []
  | file :: rest =>
    if hasSuffix file.path config.fileExtension && file.events.isNone then []
    else .load file :: .log :: actionsOf rest

theorem loadDirectory_eq (fuel : Nat) (files : List HarvestFile) : ∀ state : Loading F C,
    loadDirectory databases A W config fuel files state =
      (actionsOf config files).foldlM (act D databases A W config fuel) state := by
  induction files with
  | nil => intro state; rfl
  | cons file rest ih =>
    intro state
    rw [loadDirectory, actionsOf]
    split
    · rename_i unopened
      rw [Bool.and_eq_true, Option.isNone_iff_eq_none] at unopened
      rw [loadFile, if_pos unopened.1, unopened.2]
      rfl
    · rename_i opens
      have opened : ∀ result, loadFile databases W config state file = some result → result.2 = true := by
        intro result loaded
        unfold loadFile at loaded
        split at loaded
        · rename_i suffix
          cases events : file.events with
          | none => exact absurd (by rw [suffix, events]; rfl) opens
          | some events' =>
            simp only [events] at loaded
            obtain ⟨_, _, same⟩ := Option.bind_eq_some_iff.mp loaded
            rw [← Option.some.inj same]
        · obtain rfl := Option.some.inj loaded
          rfl
      rw [List.foldlM_cons, act]
      cases loaded : loadFile databases W config state file with
      | none => rfl
      | some result =>
        simp only [Option.bind_eq_bind, Option.bind_some, Option.map_some, opened result loaded, if_true,
          List.foldlM_cons, act]
        cases logFile A config fuel result.1 with
        | none => rfl
        | some next => exact ih next

/-- **`loadHarvests` is a sequence of actions.** -/
theorem loadHarvests_eq (fuel : Nat) (directories : List (List HarvestFile)) (indexBuilder : IndexBuilder F C) :
    loadHarvests databases A W config fuel directories indexBuilder =
      (directories.flatMap (actionsOf config)).foldlM (act D databases A W config fuel) ⟨indexBuilder, 0, []⟩ := by
  rw [loadHarvests]
  generalize (⟨indexBuilder, 0, []⟩ : Loading F C) = state
  induction directories generalizing state with
  | nil => rfl
  | cons files rest ih =>
    rw [List.foldlM_cons, List.flatMap_cons, List.foldlM_append, loadDirectory_eq D]
    cases (actionsOf config files).foldlM (act D databases A W config fuel) state with
    | none => rfl
    | some next => exact ih next

/-! ### Conditions -/

/-- **When a query is safe**: the index is not empty, the meanings have ids of constants, the variables and ranges of
the query have no child nodes and there are enough ids for them, and the database answers. -/
structure Answered (builder : IndexBuilder F C) (token : CmmlToken) (answers : DbQuery) : Prop where
  nonempty : ¬ builder.index.IsEmpty
  roomy : builder.meaningDictionary.map.length < 2 ^ 24 - 161
  bare : Bare token
  enoughIds : EnoughIds ((subtrees token).map nodeKind)
  answers : ∀ id offset size, (answers id offset size).isSome

/-- **When an action is safe**, in a state: the expressions of a harvest are well shaped; statistics are logged of an
index that is not empty; and an image has to be addressable. -/
def Meets (state : Loading F C) : Action → Prop
  | .load file => ∀ events, file.events = some events → ∀ data : MwsHarvestSaxUserData W (Option (IndexBuilder F C)),
    HarvestReader.processHarvest (harvestIndexer databases) (!config.shouldIgnoreData) events
      (some state.indexBuilder) = some data → ∀ call ∈ data.calls, WellShaped call.1
  | .log => config.logging = true → ¬ state.indexBuilder.index.IsEmpty
  | .search _ token answers => Answered state.indexBuilder token answers
  | .searchExported longOffStart _ token answers => Answered state.indexBuilder token answers ∧
    longOffStart ≤ 2 ^ 32 ∧ (∀ entry ∈ state.indexBuilder.index.leaves, entry.2.solutions < 2 ^ 30) ∧
    ∀ fuel mswr file, state.indexBuilder.index.exportToMemsector longOffStart fuel Memsector.create =
      some (mswr, file) → file.length < 2 ^ 34

/-- **The states that are reached** from an empty index by actions that meet their conditions. -/
inductive Reached : Loading F C → Prop
  | start (formulaDb : F) (crawlDb : Option C) (options : EncoderConfig) (nextId : Nat) :
      Reached ⟨⟨formulaDb, crawlDb, .empty nextId, .empty, options⟩, 0, []⟩
  | step {state next : Loading F C} {action : Action} {fuel : Nat} : Reached state →
      Meets databases W config state action → act D databases tmpIndexAccessor W config fuel state action = some next →
      Reached next

end Actions

/-! ### Safety -/

section Safety

variable {D : Doubles} {F C : Type} {databases : Databases F C} {W : TextWriter} {config : HarvesterConfiguration}

/-- The dictionary of a loaded index has numbered its meanings, and the decoder knows those of its constants. -/
theorem IndexBuilder.Loaded.numbered {builder : IndexBuilder F C} (loaded : builder.Loaded)
    (roomy : builder.meaningDictionary.map.length < 2 ^ 24 - 161) :
    (∃ keys, builder.meaningDictionary.Numbered keys ∧ Roomy keys) ∧
      Decodes (some builder.meaningDictionary) builder.index := by
  obtain ⟨formulas, puts, grown, dictionary, stems⟩ := loaded
  rw [dictionary] at roomy ⊢
  obtain ⟨numbered, length⟩ := IdDictionary.numbered_of_length (lt_trans roomy (by decide))
  rw [← length] at roomy
  refine ⟨⟨_, numbered, roomy⟩, fun entry member token inside flat => ?_⟩
  have stored := grown.shaped.mem_leaves.mp member
  have among : entry.1 ∈ formulas := (grown.leafAt_isSome entry.1).mp (by rw [stored]; rfl)
  rw [IdDictionary.length_concatAll] at roomy
  obtain ⟨meaning, known⟩ := (stems entry.1 among token inside flat).getMeaning roomy
  exact ⟨_, meaning, rfl, known⟩

/-- **Queries go through**, over the index and over every image that represents it. -/
theorem answerQuery_loaded {builder : IndexBuilder F C} (loaded : builder.Loaded) {token : CmmlToken}
    {answers : DbQuery} (answered : Answered builder token answers) (mwsQuery : Query) :
    ∃ enough result, ∀ fuel, enough ≤ fuel →
      answerQuery D strictAccessor builder.index builder.meaningDictionary builder.indexingOptions answers mwsQuery
        token fuel = some result ∧
      answerQuery D tmpIndexAccessor builder.index builder.meaningDictionary builder.indexingOptions answers mwsQuery
        token fuel = some result ∧
      ∀ handle : IndexHandle, Represents Fits handle.image builder.index.root handle.root →
        answerQuery D indexAccessor handle builder.meaningDictionary builder.indexingOptions answers mwsQuery
          token fuel = some result := by
  obtain ⟨⟨keys, numbered, roomy⟩, decodes⟩ := loaded.numbered answered.roomy
  by_cases ok : (encodeQuery D builder.indexingOptions builder.meaningDictionary token).2.2 = 0
  · obtain ⟨complete, info, given, bounds⟩ := @encode_isQueryCode D (.new builder.meaningDictionary) keys numbered roomy
      builder.indexingOptions token answered.bare answered.enoughIds ⟨[], [], []⟩ ok
    have answerable : Answerable (encodeQuery D builder.indexingOptions builder.meaningDictionary token).2.1.rangeBounds
        (some builder.meaningDictionary) builder.index
        (encodeQuery D builder.indexingOptions builder.meaningDictionary token).1 := by
      have same : (encodeQuery D builder.indexingOptions builder.meaningDictionary token).2.1 = info :=
        congrArg (fun given : Option (ExpressionInfo D) => given.getD ⟨[], [], []⟩) given
      refine ⟨complete, fun other member isRange => ?_, fun _ => decodes⟩
      rw [same]
      exact bounds other member isRange
    have shape := loaded.wellFormed answered.nonempty
    obtain ⟨collected, folded⟩ := Option.isSome_iff_exists.mp
      (isSome_foldlM_absorb (new (encodeQuery D builder.indexingOptions builder.meaningDictionary token).1
        mwsQuery.options (encodeQuery D builder.indexingOptions builder.meaningDictionary token).2.1.rangeBounds
        (some builder.meaningDictionary)) builder.index answered.answers (castUnsigned mwsQuery.attrResultLimitMin)
        (checkedSize (castUnsigned mwsQuery.attrResultLimitMin) (castUnsigned mwsQuery.attrResultMaxSize)
          (unsignedOfInt mwsQuery.attrResultTotalReqNr)) (unsignedOfInt mwsQuery.attrResultTotalReqNr) _ nothing)
    obtain ⟨enough, strict⟩ := getResult_strict shape answerable folded
    obtain ⟨enough', others⟩ := getResult_folded shape answerable folded
    refine ⟨max enough enough', _, fun fuel more => ⟨(if_pos ok).trans (strict fuel (by omega)),
      (if_pos ok).trans (others fuel (by omega)).1, fun handle root => ?_⟩⟩
    exact (if_pos ok).trans ((others fuel (by omega)).2 handle root)
  · exact ⟨0, .empty, fun fuel _ => ⟨if_neg ok, if_neg ok, fun handle _ => if_neg ok⟩⟩

/-- A file is loaded. -/
theorem load_loaded {state next : Loading F C} (loaded : state.indexBuilder.Loaded) {file : HarvestFile}
    (meets : Meets databases W config state (.load file))
    (done : (loadFile databases W config state file).map Prod.fst = some next) : next.indexBuilder.Loaded := by
  obtain ⟨result, opened, rfl⟩ := Option.map_eq_some_iff.mp done
  unfold loadFile at opened
  split at opened
  · cases given : file.events with
    | none =>
      simp only [given, Option.some.injEq] at opened
      exact opened ▸ loaded
    | some events =>
      simp only [given] at opened
      obtain ⟨read, harvest, same⟩ := Option.bind_eq_some_iff.mp opened
      rw [← Option.some.inj same]
      exact loadHarvestFromFd_loaded loaded (meets events given) harvest
  · rw [← Option.some.inj opened]
    exact loaded

/-- **One action** that meets its condition goes through. -/
theorem act_loaded {state : Loading F C} (loaded : state.indexBuilder.Loaded) {action : Action}
    (meets : Meets databases W config state action) (serves : ∀ file, action ≠ .load file) :
    ∃ enough next, ∀ fuel, enough ≤ fuel →
      act D databases strictAccessor W config fuel state action = some next ∧
        act D databases tmpIndexAccessor W config fuel state action = some next := by
  cases action with
  | load file => exact absurd rfl (serves file)
  | log =>
    by_cases logging : config.logging = true
    · obtain ⟨enough, line, logged⟩ := TmpIndex.logIndexStatistics_shaped (loaded.wellFormed (meets logging))
      refine ⟨enough, { state with logFile := state.logFile ++ [line] }, fun fuel more => ?_⟩
      obtain ⟨strict, inMemory⟩ := logged fuel more
      simp only [act, logFile, if_pos logging, strict, inMemory, Option.bind_eq_bind, Option.bind_some, Option.pure_def,
        and_self]
    · exact ⟨0, state, fun fuel _ => ⟨if_neg logging, if_neg logging⟩⟩
  | search mwsQuery token answers =>
    obtain ⟨enough, result, answered⟩ := answerQuery_loaded (D := D) loaded meets mwsQuery
    refine ⟨enough, state, fun fuel more => ?_⟩
    obtain ⟨strict, inMemory, -⟩ := answered fuel more
    simp only [act, strict, inMemory, Option.map_some, and_self]
  | searchExported longOffStart mwsQuery token answers =>
    obtain ⟨query, threshold, hits, addressable⟩ := meets
    have shape := loaded.wellFormed query.nonempty
    obtain ⟨formulas, puts, grown, -, -⟩ := id loaded
    have fits : ∀ entry ∈ state.indexBuilder.index.leaves, Fits entry.2 := fun entry member =>
      ⟨hits entry member, grown.id_lt entry member⟩
    obtain ⟨enough, mswr, file, computed, low, opens⟩ := TmpIndex.exported_spec threshold shape fits
    obtain ⟨-, -, header, load, rep⟩ := opens (low (addressable enough mswr file (computed enough le_rfl)))
    have root : Represents Fits (⟨file, Memsector.getRoot header⟩ : IndexHandle).image state.indexBuilder.index.root
        (⟨file, Memsector.getRoot header⟩ : IndexHandle).root := ⟨⟨1, shape⟩, rep⟩
    obtain ⟨enough', result, answered⟩ := answerQuery_loaded (D := D) loaded query mwsQuery
    refine ⟨max enough enough', state, fun fuel more => ?_⟩
    have onImage := (answered fuel (by omega)).2.2 _ root
    simp only [act, computed fuel (by omega), load, onImage, Option.bind_eq_bind, Option.bind_some, Option.pure_def,
      and_self]

/-- Only loading changes the builder. -/
theorem indexBuilder_act {A : Accessor TmpIndex TmpIndexNode TmpIterator} {fuel : Nat} {state next : Loading F C}
    {action : Action} (done : act D databases A W config fuel state action = some next)
    (other : ∀ file, action ≠ .load file) : next.indexBuilder = state.indexBuilder := by
  cases action with
  | load file => exact absurd rfl (other file)
  | log =>
    rw [act, logFile] at done
    split at done
    · obtain ⟨line, -, same⟩ := Option.bind_eq_some_iff.mp done
      rw [← Option.some.inj same]
    · rw [Option.some.inj done]
  | search mwsQuery token answers =>
    obtain ⟨result, -, rfl⟩ := Option.map_eq_some_iff.mp done
    rfl
  | searchExported longOffStart mwsQuery token answers =>
    obtain ⟨exported, -, later⟩ := Option.bind_eq_some_iff.mp done
    obtain ⟨header, -, later⟩ := Option.bind_eq_some_iff.mp later
    obtain ⟨result, -, same⟩ := Option.bind_eq_some_iff.mp later
    rw [← Option.some.inj same]

/-- Every state that is reached has a loaded index. -/
theorem Reached.loaded {state : Loading F C} (reached : Reached D databases W config state) :
    state.indexBuilder.Loaded := by
  induction reached with
  | start formulaDb crawlDb options nextId => exact loaded_new formulaDb crawlDb options nextId
  | @step state next action fuel _ meets done ih =>
    by_cases loading : ∃ file, action = .load file
    · obtain ⟨file, rfl⟩ := loading
      exact load_loaded ih meets done
    · rw [indexBuilder_act done fun file same => loading ⟨file, same⟩]
      exact ih

/-- **Serving is safe.** In every state that a program has reached from an empty index by actions that meet their
conditions (loading harvests, logging statistics after any of them, answering queries over the index or its exported
image), logging and answering go through where the condition is met, also with an accessor that may not be asked for the
children of a leaf. -/
theorem act_reached {state : Loading F C} (reached : Reached D databases W config state) {action : Action}
    (meets : Meets databases W config state action) (serves : ∀ file, action ≠ .load file) :
    ∃ enough next, Reached D databases W config next ∧ ∀ fuel, enough ≤ fuel →
      act D databases strictAccessor W config fuel state action = some next ∧
        act D databases tmpIndexAccessor W config fuel state action = some next := by
  obtain ⟨enough, next, done⟩ := act_loaded (D := D) reached.loaded meets serves
  exact ⟨enough, next, .step reached meets (done enough le_rfl).2, done⟩

end Safety

/-! ### An empty index, and variables with child nodes -/

/-- A builder as `HarvestQueryHandler` makes it. -/
def newBuilder : IndexBuilder MemFormulaDb MemCrawlDb := ⟨.empty, some .empty, .empty 0, .empty, ⟨false⟩⟩

/-- A file with a harvest in which there is no expression. -/
def emptyHarvest : HarvestFile := ⟨[], some [.startElement mwsharvestMainName [], .endElement mwsharvestMainName]⟩

/-- A harvest of the identifier `x`. -/
def identifierEvents : List XmlEvent :=
  [.startElement mwsharvestMainName [], .startElement mwsharvestExprName [], .startElement ciTag [],
    .characters ['x'], .endElement ciTag, .endElement mwsharvestExprName, .endElement mwsharvestMainName]

/-- A file with that harvest. -/
def identifierHarvest : HarvestFile := ⟨[], some identifierEvents⟩

/-- The identifier `x`. -/
def identifierTree : CmmlToken := ((OpenToken.new ciTag []).appendTextContent ['x']).close

/-- The builder when `identifierHarvest` is loaded. -/
def identifierBuilder : IndexBuilder MemFormulaDb MemCrawlDb where
  formulaDb := (MemFormulaDb.empty.insertFormula 1 crawlIdNull ⟨[], (Located.root identifierTree).getXpath⟩).1
  crawlDb := some .empty
  index := ⟨.mk none [(encodedToken 162 0, leafNode ⟨1, 1⟩)], 1⟩
  meaningDictionary := (IdDictionary.put .empty identifierTree.getMeaning).1
  indexingOptions := ⟨false⟩

/-- A variable without a name, with the given child nodes. -/
def qvarTree (children : List CmmlToken) : CmmlToken := .mk qvarTag [] .empty children

/-- A query with the attributes that it has by default. -/
def plainQuery (token : CmmlToken) : Query := { Query.new ⟨.mwsXml, ' '⟩ with tokens := [token] }

/-- The harvest without expressions leaves the index empty: the iterator of the search stands behind the end of the
vector at once, and so does the one that computes the statistics. In the index of `x`, a variable with a variable as its
child node is at a leaf when the search comes to the child node. -/
theorem act_emptyIndex :
    (∃ state, (∀ fuel, loadHarvests memDatabases tmpIndexAccessor HarvestReader.plainWriter ⟨false, [], false⟩ fuel
        [[emptyHarvest]] newBuilder = some state) ∧
      (tmpIndexAccessor.getChildrenIterator state.indexBuilder.index state.indexBuilder.index.root).bind
        (tmpIndexAccessor.getToken state.indexBuilder.index) = none ∧
      ∀ fuel answers, act .whole memDatabases tmpIndexAccessor HarvestReader.plainWriter ⟨false, [], false⟩ fuel state
        (.search (plainQuery (qvarTree [])) (qvarTree []) answers) = none) ∧
    (∀ fuel, loadHarvests memDatabases tmpIndexAccessor HarvestReader.plainWriter ⟨false, [], true⟩ fuel
      [[emptyHarvest]] newBuilder = none) ∧
    ∃ state, (∀ fuel, loadHarvests memDatabases tmpIndexAccessor HarvestReader.plainWriter ⟨false, [], false⟩ fuel
        [[identifierHarvest]] newBuilder = some state) ∧ ¬ state.indexBuilder.index.IsEmpty ∧
      ∀ fuel answers, act .whole memDatabases tmpIndexAccessor HarvestReader.plainWriter ⟨false, [], false⟩ fuel state
        (.search (plainQuery (qvarTree [qvarTree []])) (qvarTree [qvarTree []]) answers) = none := by
  refine ⟨⟨⟨newBuilder, 0, []⟩, fun fuel => rfl, rfl, fun fuel answers => ?_⟩, fun fuel => ?_, ?_⟩
  · have encoded : encodeQuery Doubles.whole ⟨false⟩ .empty (qvarTree []) = ([encodedToken 33 1], ⟨[], [], []⟩, 0) := by
      with_unfolding_all rfl
    show (answerQuery Doubles.whole tmpIndexAccessor newBuilder.index .empty ⟨false⟩ answers _ (qvarTree []) fuel).map _ =
      none
    rw [answerQuery, encoded]
    cases fuel with
    | zero => rfl
    | succ fuel => rfl
  · cases fuel with
    | zero => rfl
    | succ fuel => rfl
  · refine ⟨⟨identifierBuilder, 1, []⟩, fun fuel => by with_unfolding_all rfl, List.cons_ne_nil _ _,
      fun fuel answers => ?_⟩
    have encoded : encodeQuery Doubles.whole ⟨false⟩ identifierBuilder.meaningDictionary (qvarTree [qvarTree []]) =
        ([encodedToken 33 1, encodedToken 34 1], ⟨[], [], []⟩, 0) := by with_unfolding_all rfl
    show (answerQuery Doubles.whole tmpIndexAccessor identifierBuilder.index identifierBuilder.meaningDictionary ⟨false⟩
      answers _ (qvarTree [qvarTree []]) fuel).map _ = none
    rw [answerQuery, encoded]
    -- the first variable takes one round of the loop, and so does the iterator in it
    match fuel with
    | 0 => rfl
    | 1 => rfl
    | fuel + 2 => rfl

/-- The index of `x` is reached, and answers the query for a variable. -/
theorem act_reached_identifier :
    Reached .whole memDatabases HarvestReader.plainWriter ⟨false, [], false⟩ ⟨identifierBuilder, 1, []⟩ ∧
    ∃ enough next, Reached .whole memDatabases HarvestReader.plainWriter ⟨false, [], false⟩ next ∧
      ∀ fuel, enough ≤ fuel →
        act .whole memDatabases strictAccessor HarvestReader.plainWriter ⟨false, [], false⟩ fuel
          ⟨identifierBuilder, 1, []⟩ (.search (plainQuery (qvarTree [])) (qvarTree []) fun _ _ _ => some []) = some next ∧
        act .whole memDatabases tmpIndexAccessor HarvestReader.plainWriter ⟨false, [], false⟩ fuel
          ⟨identifierBuilder, 1, []⟩ (.search (plainQuery (qvarTree [])) (qvarTree []) fun _ _ _ => some []) =
            some next := by
  have shaped : WellShaped identifierTree := by
    intro inner member _ node inside
    obtain rfl : inner = identifierTree := List.mem_singleton.mp member
    obtain rfl : node = identifierTree := List.mem_singleton.mp inside
    decide
  have meets : Meets memDatabases HarvestReader.plainWriter ⟨false, [], false⟩ ⟨newBuilder, 0, []⟩
      (.load identifierHarvest) := by
    intro events given data read call member
    obtain rfl := Option.some.inj given
    have calls : (HarvestReader.processHarvest (harvestIndexer memDatabases) true identifierEvents (some newBuilder)).map
        (fun data : MwsHarvestSaxUserData HarvestReader.plainWriter _ => data.calls) =
          some [(identifierTree, [], crawlIdNull)] := by with_unfolding_all rfl
    have read : HarvestReader.processHarvest (harvestIndexer memDatabases) true identifierEvents (some newBuilder) =
        some data := read
    rw [read, Option.map_some, Option.some.injEq] at calls
    rw [calls, List.mem_singleton] at member
    rw [member]
    exact shaped
  have reached : Reached .whole memDatabases HarvestReader.plainWriter ⟨false, [], false⟩ ⟨identifierBuilder, 1, []⟩ :=
    .step (.start .empty (some .empty) ⟨false⟩ 0) meets (by with_unfolding_all rfl : act .whole memDatabases tmpIndexAccessor
      HarvestReader.plainWriter ⟨false, [], false⟩ 0 ⟨newBuilder, 0, []⟩ (.load identifierHarvest) = _)
  refine ⟨reached, act_reached reached ⟨List.cons_ne_nil _ _, by decide, ?_, ?_, fun _ _ _ => rfl⟩ (by simp)⟩
  · intro node inside
    obtain rfl : node = qvarTree [] := List.mem_singleton.mp inside
    rfl
  · exact ⟨by decide, by decide, by decide⟩

end MathWebSearch
