/-
**Loading harvests with other databases** (`IndexBuilder` with any `FormulaDb` and `CrawlDb`).

The index, the dictionary and everything that is counted do not depend on the databases, and the builder calls both
databases in the same order, whatever they are.

* `Relating` — two pairs of databases that answer alike, as long as the first stays within bounds.
* `indexContentMath_related`, `simulating_harvestIndexer` — an expression, and a harvest.
* `loadHarvests_related` — **all harvests are loaded alike**.
-/

import MathWebSearch.Index.HarvestLoading
import MathWebSearch.Xmlparser.HarvestCalls

namespace MathWebSearch

open CmmlToken IndexBuilder HarvestReader

section Other

variable {F C F' C' : Type}

/-- The same builder with other databases. -/
def IndexBuilder.withDatabases (self : IndexBuilder F C) (formulaDb : F') (crawlDb : Option C') : IndexBuilder F' C' :=
  ⟨formulaDb, crawlDb, self.index, self.meaningDictionary, self.indexingOptions⟩

/-- The same variables of `indexContentMath` with other databases. -/
def IndexBuilder.Indexing.withDatabases (state : Indexing F C) (formulaDb : F') (crawlDb : Option C') : Indexing F' C' :=
  ⟨state.builder.withDatabases formulaDb crawlDb, state.encoder, state.uniqueFormulaIds, state.numSubExpressions⟩

/-- The same variables of `loadHarvests` with other databases. -/
def Loading.withDatabases (state : Loading F C) (formulaDb : F') (crawlDb : Option C') : Loading F' C' :=
  ⟨state.indexBuilder.withDatabases formulaDb crawlDb, state.numExpressions, state.logFile⟩

/-- **Two formula databases store alike** where the first stays within bounds, and a database within bounds comes from
such a database. -/
structure RelatingFormulas (databases : Databases F C) (databases' : Databases F' C') (RF : F → F' → Prop)
    (OkF : F → Prop) : Prop where
  insertFormula : ∀ {formulaDb} id crawlId path, OkF (databases.insertFormula formulaDb id crawlId path).1 →
    OkF formulaDb ∧ ∀ {other}, RF formulaDb other →
      RF (databases.insertFormula formulaDb id crawlId path).1 (databases'.insertFormula other id crawlId path).1

/-- **Two pairs of databases answer alike**: the crawl databases give the same ids away, too. -/
structure Relating (databases : Databases F C) (databases' : Databases F' C') (RF : F → F' → Prop) (RC : C → C' → Prop)
    (OkF : F → Prop) (OkC : C → Prop) : Prop extends RelatingFormulas databases databases' RF OkF where
  putData : ∀ {crawlDb crawlDb' crawlData crawlId}, databases.putData crawlDb crawlData = some (crawlDb', crawlId) →
    OkC crawlDb' → OkC crawlDb ∧ ∀ {other}, RC crawlDb other →
      ∃ other', databases'.putData other crawlData = some (other', crawlId) ∧ RC crawlDb' other'

end Other

variable {F C F' C' : Type} {databases : Databases F C} {databases' : Databases F' C'} {RF : F → F' → Prop}
  {RC : C → C' → Prop} {OkF : F → Prop} {OkC : C → Prop}

/-! ### An expression -/

namespace RelatingFormulas

/-- One encoding. -/
theorem insertEncoding (relating : RelatingFormulas databases databases' RF OkF) {xmlId : Str} {crawlId : CrawlId}
    {state state' : Indexing F C} {token : Located} {formula : EncodedFormula}
    (inserted : insertEncoding databases xmlId crawlId state token formula = some state')
    (ok : OkF state'.builder.formulaDb) : OkF state.builder.formulaDb ∧
      ∀ {other} (crawlDb : Option C'), RF state.builder.formulaDb other → ∃ other',
        IndexBuilder.insertEncoding databases' xmlId crawlId (state.withDatabases other crawlDb) token formula =
          some (state'.withDatabases other' crawlDb) ∧ RF state'.builder.formulaDb other' := by
  obtain ⟨⟨index, leaf⟩, found, same⟩ := Option.bind_eq_some_iff.mp inserted
  have found' : ∀ (other : F') (crawlDb : Option C'),
      (state.withDatabases other crawlDb).builder.index.insertData formula = some (index, leaf) := fun _ _ => found
  by_cases known : leaf.id ∈ state.uniqueFormulaIds
  · obtain rfl := Option.some.inj ((if_pos known).symm.trans same)
    refine ⟨ok, fun {other} crawlDb related => ⟨other, ?_, related⟩⟩
    rw [IndexBuilder.insertEncoding, found' other crawlDb]
    exact if_pos known
  · obtain rfl := Option.some.inj ((if_neg known).symm.trans same)
    obtain ⟨before, follows⟩ := relating.insertFormula leaf.id crawlId ⟨xmlId, token.getXpath⟩ ok
    refine ⟨before, fun {other} crawlDb related => ⟨_, ?_, follows related⟩⟩
    rw [IndexBuilder.insertEncoding, found' other crawlDb]
    exact if_neg known

/-- All encodings of an expression. -/
theorem insertEncodings (relating : RelatingFormulas databases databases' RF OkF) {xmlId : Str} {crawlId : CrawlId}
    (entries : List (Located × EncodedFormula)) : ∀ {state state' : Indexing F C},
      insertEncodings databases xmlId crawlId entries state = some state' → OkF state'.builder.formulaDb →
      OkF state.builder.formulaDb ∧ ∀ {other} (crawlDb : Option C'), RF state.builder.formulaDb other → ∃ other',
        IndexBuilder.insertEncodings databases' xmlId crawlId entries (state.withDatabases other crawlDb) =
          some (state'.withDatabases other' crawlDb) ∧ RF state'.builder.formulaDb other' := by
  induction entries with
  | nil =>
    intro state state' inserted ok
    obtain rfl := Option.some.inj inserted
    exact ⟨ok, fun {other} _ related => ⟨other, rfl, related⟩⟩
  | cons entry rest ih =>
    intro state state' inserted ok
    rw [insertEncodings_cons, Option.bind_eq_some_iff] at inserted
    obtain ⟨next, first, later⟩ := inserted
    obtain ⟨between, followsLater⟩ := ih later ok
    obtain ⟨before, follows⟩ := relating.insertEncoding first between
    refine ⟨before, fun {other} crawlDb related => ?_⟩
    obtain ⟨middle, first', related'⟩ := follows crawlDb related
    obtain ⟨last, later', related''⟩ := followsLater crawlDb related'
    exact ⟨last, by rw [insertEncodings_cons, first', Option.bind_some, later'], related''⟩

/-- **An expression is indexed alike.** -/
theorem indexContentMath (relating : RelatingFormulas databases databases' RF OkF) {self self' : IndexBuilder F C}
    {tree : CmmlToken} {xmlId : Str} {crawlId : CrawlId} {number : Int}
    (indexed : self.indexContentMath databases tree xmlId crawlId = some (self', number)) (ok : OkF self'.formulaDb) :
    self'.crawlDb = self.crawlDb ∧ OkF self.formulaDb ∧
      ∀ {other} (crawlDb : Option C'), RF self.formulaDb other → ∃ other',
        (self.withDatabases other crawlDb).indexContentMath databases' tree xmlId crawlId =
          some (self'.withDatabases other' crawlDb, number) ∧ RF self'.formulaDb other' := by
  rw [indexContentMath_eq, Option.map_eq_some_iff] at indexed
  obtain ⟨state, inserted, same⟩ := indexed
  obtain ⟨rfl, rfl⟩ := Prod.mk.inj same
  obtain ⟨before, follows⟩ := relating.insertEncodings _ inserted ok
  refine ⟨(insertEncodings_kept databases _ inserted).2, before, fun {other} crawlDb related => ?_⟩
  obtain ⟨other', inserted', related'⟩ := follows crawlDb related
  refine ⟨other', ?_, related'⟩
  rw [indexContentMath_eq]
  exact congrArg (Option.map _) inserted'

end RelatingFormulas

namespace Relating

/-! ### A harvest -/

/-- The two processors, when nothing has gone wrong. -/
def SameBuilder (RF : F → F' → Prop) (RC : C → C' → Prop) (state : Option (IndexBuilder F C))
    (other : Option (IndexBuilder F' C')) : Prop :=
  ∃ builder formulaDb crawlDb, state = some builder ∧ other = some (builder.withDatabases formulaDb crawlDb) ∧
    RF builder.formulaDb formulaDb ∧ Option.Rel RC builder.crawlDb crawlDb

/-- A builder whose databases are within bounds. -/
def Within (OkF : F → Prop) (OkC : C → Prop) (builder : IndexBuilder F C) : Prop :=
  OkF builder.formulaDb ∧ ∀ crawlDb, builder.crawlDb = some crawlDb → OkC crawlDb

/-- The same for the processor. -/
def WithinBounds (OkF : F → Prop) (OkC : C → Prop) (state : Option (IndexBuilder F C)) : Prop :=
  ∃ builder, state = some builder ∧ Within OkF OkC builder

/-- **The indexers answer alike.** -/
theorem simulating_harvestIndexer (relating : Relating databases databases' RF RC OkF OkC) :
    Simulating (harvestIndexer databases) (harvestIndexer databases') (SameBuilder RF RC) (fun id id' => id = id')
      (fun number number' => number = number') (WithinBounds OkF OkC) where
  null := by rintro id _ rfl; rfl
  bothNull := rfl
  expression := by
    intro state token uri crawlId ok
    obtain ⟨after, computed, okF, okC⟩ := ok
    cases state with
    | none => cases computed
    | some builder =>
      cases indexed : builder.indexContentMath databases token uri crawlId with
      | none =>
        simp only [harvestIndexer, Option.bind_some, indexed] at computed
        cases computed
      | some result =>
        obtain ⟨builder', number⟩ := result
        simp only [harvestIndexer, Option.bind_some, indexed, Option.some.injEq] at computed
        subst computed
        obtain ⟨kept, before, follows⟩ := relating.indexContentMath indexed okF
        refine ⟨⟨builder, rfl, before, fun crawlDb same => okC crawlDb (kept.trans same)⟩, ?_⟩
        rintro other _ ⟨builder, formulaDb, crawlDb, same, rfl, related, crawls⟩ rfl
        obtain rfl := Option.some.inj same
        obtain ⟨formulaDb', indexed', related'⟩ := follows crawlDb related
        simp only [harvestIndexer, Option.bind_some, indexed', indexed]
        exact ⟨⟨builder', formulaDb', crawlDb, rfl, rfl, related', kept ▸ crawls⟩, fun {_ _} same => by rw [same]⟩
  text := by
    intro state data ok
    obtain ⟨after, computed, okF, okC⟩ := ok
    cases state with
    | none => cases computed
    | some builder =>
      cases crawlDb : builder.crawlDb with
      | none =>
        have stored : builder.indexCrawlData databases data = some (builder, crawlIdNull) := by
          rw [indexCrawlData, crawlDb]
        simp only [harvestIndexer, Option.bind_some, stored, Option.some.injEq] at computed
        subst computed
        refine ⟨⟨builder, rfl, okF, okC⟩, ?_⟩
        rintro other ⟨builder, formulaDb, crawlDb', same, rfl, related, crawls⟩
        obtain rfl := Option.some.inj same
        rw [crawlDb] at crawls
        cases crawls
        have stored' : (builder.withDatabases formulaDb none).indexCrawlData databases' data =
          some (builder.withDatabases formulaDb none, crawlIdNull) := rfl
        simp only [harvestIndexer, Option.bind_some, stored', stored]
        exact ⟨⟨builder, formulaDb, none, rfl, rfl, related, crawlDb ▸ .none⟩, trivial⟩
      | some crawls =>
        have expanded : builder.indexCrawlData databases data = (databases.putData crawls data).bind fun put =>
            some ({ builder with crawlDb := some put.1 }, put.2) := by
          rw [indexCrawlData, crawlDb]
          rfl
        cases put : databases.putData crawls data with
        | none =>
          simp only [harvestIndexer, Option.bind_some, expanded, put, Option.bind_none] at computed
          cases computed
        | some result =>
          obtain ⟨crawls', crawlId⟩ := result
          have stored : builder.indexCrawlData databases data = some ({ builder with crawlDb := some crawls' }, crawlId) := by
            rw [expanded, put]
            rfl
          simp only [harvestIndexer, Option.bind_some, stored, Option.some.injEq] at computed
          subst computed
          obtain ⟨before, follows⟩ := relating.putData put (okC crawls' rfl)
          refine ⟨⟨builder, rfl, okF, fun other same => ?_⟩, ?_⟩
          · obtain rfl := Option.some.inj (crawlDb.symm.trans same)
            exact before
          rintro other ⟨builder, formulaDb, crawlDb', same, rfl, related, crawled⟩
          obtain rfl := Option.some.inj same
          rw [crawlDb] at crawled
          cases crawled with
          | some alike =>
          rename_i theirs
          obtain ⟨theirs', put', alike'⟩ := follows alike
          have stored' : (builder.withDatabases formulaDb (some theirs)).indexCrawlData databases' data =
              some (builder.withDatabases formulaDb (some theirs'), crawlId) := by
            show (databases'.putData theirs data).bind _ = _
            rw [put']
            rfl
          simp only [harvestIndexer, Option.bind_some, stored', stored]
          exact ⟨⟨{ builder with crawlDb := some crawls' }, formulaDb, some theirs', rfl, rfl, related, .some alike'⟩,
            trivial⟩

/-- **A harvest is loaded alike.** -/
theorem loadHarvestFromFd (relating : Relating databases databases' RF RC OkF OkC) {W : TextWriter}
    {builder : IndexBuilder F C} {events : List XmlEvent} {shouldProcessData : Bool} {result : IndexBuilder F C × Nat}
    (loaded : loadHarvestFromFd databases W builder events shouldProcessData = some result)
    (within : Within OkF OkC result.1) : Within OkF OkC builder ∧
      ∀ {formulaDb crawlDb}, RF builder.formulaDb formulaDb → Option.Rel RC builder.crawlDb crawlDb →
        ∃ formulaDb' crawlDb', MathWebSearch.loadHarvestFromFd databases' W (builder.withDatabases formulaDb crawlDb) events
            shouldProcessData = some (result.1.withDatabases formulaDb' crawlDb', result.2) ∧
          RF result.1.formulaDb formulaDb' ∧ Option.Rel RC result.1.crawlDb crawlDb' := by
  obtain ⟨data, read, later⟩ := Option.bind_eq_some_iff.mp loaded
  obtain ⟨builder', after, same⟩ := Option.bind_eq_some_iff.mp later
  obtain rfl := Option.some.inj same
  have ok : WithinBounds OkF OkC data.harvestProcessor := ⟨builder', after, within⟩
  obtain ⟨⟨start, began, before⟩, follows⟩ := relating.simulating_harvestIndexer.foldlM events read ok
  obtain rfl := Option.some.inj began
  refine ⟨before, fun {formulaDb crawlDb} formulas crawls => ?_⟩
  obtain ⟨other', ran, both⟩ := @follows (init (some (builder.withDatabases formulaDb crawlDb)))
    (readBoth_init ⟨builder, formulaDb, crawlDb, rfl, rfl, formulas, crawls⟩ rfl)
  obtain ⟨last, formulaDb', crawlDb', same, processor, formulas', crawls'⟩ := both.processors
  obtain rfl := Option.some.inj (after.symm.trans same)
  refine ⟨formulaDb', crawlDb', ?_, formulas', crawls'⟩
  have read' : (processHarvest (harvestIndexer databases') shouldProcessData events
      (some (builder.withDatabases formulaDb crawlDb)) : Option (MwsHarvestSaxUserData W _)) = _ := ran
  rw [MathWebSearch.loadHarvestFromFd, read', Option.bind_eq_bind, Option.bind_some, processor, Option.bind_eq_bind,
    Option.bind_some, ← both.numbers]
  rfl

/-! ### All harvests -/

variable {A : Accessor TmpIndex TmpIndexNode TmpIterator} {W : TextWriter} {config : HarvesterConfiguration} {fuel : Nat}

/-- What is loaded alike by a step: the databases in front of it are within bounds, and related databases take the same
step. -/
def Alike (RF : F → F' → Prop) (RC : C → C' → Prop) (OkF : F → Prop) (OkC : C → Prop) (before after : Loading F C)
    (step : Loading F' C' → Option (Loading F' C')) : Prop :=
  Within OkF OkC before.indexBuilder ∧ ∀ {formulaDb crawlDb}, RF before.indexBuilder.formulaDb formulaDb →
    Option.Rel RC before.indexBuilder.crawlDb crawlDb → ∃ formulaDb' crawlDb',
      step (before.withDatabases formulaDb crawlDb) = some (after.withDatabases formulaDb' crawlDb') ∧
        RF after.indexBuilder.formulaDb formulaDb' ∧ Option.Rel RC after.indexBuilder.crawlDb crawlDb'

/-- Doing nothing. -/
theorem Alike.refl {state : Loading F C} (within : Within OkF OkC state.indexBuilder) :
    Alike RF RC OkF OkC state state (some : Loading F' C' → Option (Loading F' C')) :=
  ⟨within, fun {formulaDb crawlDb} formulas crawls => ⟨formulaDb, crawlDb, rfl, formulas, crawls⟩⟩

/-- One step after the other. -/
theorem Alike.trans {first second third : Loading F C} {step step' : Loading F' C' → Option (Loading F' C')}
    (one : Alike RF RC OkF OkC first second step) (other : Alike RF RC OkF OkC second third step') :
    Alike RF RC OkF OkC first third fun state => (step state).bind step' := by
  obtain ⟨within, follows⟩ := one
  obtain ⟨-, follows'⟩ := other
  refine ⟨within, fun {formulaDb crawlDb} formulas crawls => ?_⟩
  obtain ⟨formulaDb', crawlDb', taken, formulas', crawls'⟩ := follows formulas crawls
  obtain ⟨formulaDb'', crawlDb'', taken', formulas'', crawls''⟩ := follows' formulas' crawls'
  exact ⟨formulaDb'', crawlDb'', (congrArg (Option.bind · step') taken).trans taken', formulas'', crawls''⟩

/-- A file; whether it can be opened is the same. -/
theorem loadFile (relating : Relating databases databases' RF RC OkF OkC) {state : Loading F C} {file : HarvestFile}
    {result : Loading F C × Bool} (loaded : loadFile databases W config state file = some result)
    (within : Within OkF OkC result.1.indexBuilder) :
    Alike RF RC OkF OkC state result.1 (fun state => (MathWebSearch.loadFile databases' W config state file).map Prod.fst) ∧
      ∀ {state' : Loading F' C'} {result'}, MathWebSearch.loadFile databases' W config state' file = some result' →
        result'.2 = result.2 := by
  unfold MathWebSearch.loadFile at loaded ⊢
  by_cases suffix : hasSuffix file.path config.fileExtension = true
  · simp only [if_pos suffix] at loaded ⊢
    cases given : file.events with
    | none =>
      simp only [given, Option.some.injEq] at loaded ⊢
      obtain rfl := loaded
      exact ⟨Alike.refl within, fun {_ _} same => same ▸ rfl⟩
    | some events =>
      simp only [given] at loaded ⊢
      obtain ⟨⟨builder, number⟩, read, same⟩ := Option.bind_eq_some_iff.mp loaded
      obtain rfl := Option.some.inj same
      obtain ⟨before, follows⟩ := relating.loadHarvestFromFd read within
      refine ⟨⟨before, fun {formulaDb crawlDb} formulas crawls => ?_⟩, fun {state' result'} loaded' => ?_⟩
      · obtain ⟨formulaDb', crawlDb', read', formulas', crawls'⟩ := follows formulas crawls
        refine ⟨formulaDb', crawlDb', ?_, formulas', crawls'⟩
        have start : (state.withDatabases formulaDb crawlDb).indexBuilder = state.indexBuilder.withDatabases formulaDb crawlDb :=
          rfl
        simp only [start, read', Option.bind_eq_bind, Option.bind_some, Option.map_some, Option.pure_def]
        rfl
      · obtain ⟨_, -, same⟩ := Option.bind_eq_some_iff.mp loaded'
        exact Option.some.inj same ▸ rfl
  · simp only [if_neg suffix, Option.some.injEq] at loaded ⊢
    obtain rfl := loaded
    exact ⟨Alike.refl within, fun {_ _} same => same ▸ rfl⟩

/-- Logging. -/
theorem logFile {state state' : Loading F C} (logged : logFile A config fuel state = some state')
    (within : Within OkF OkC state'.indexBuilder) :
    Alike RF RC OkF OkC state state' (MathWebSearch.logFile A config fuel : Loading F' C' → Option (Loading F' C')) := by
  unfold MathWebSearch.logFile at logged ⊢
  by_cases logging : config.logging = true
  · simp only [if_pos logging] at logged ⊢
    obtain ⟨line, written, same⟩ := Option.bind_eq_some_iff.mp logged
    obtain rfl := Option.some.inj same
    refine ⟨within, fun {formulaDb crawlDb} formulas crawls => ⟨formulaDb, crawlDb, ?_, formulas, crawls⟩⟩
    have index : (state.withDatabases formulaDb crawlDb).indexBuilder.index = state.indexBuilder.index := rfl
    simp only [index, written, Option.bind_eq_bind, Option.bind_some, Option.pure_def]
    rfl
  · simp only [if_neg logging, Option.some.injEq] at logged ⊢
    obtain rfl := logged
    exact Alike.refl within

/-- A directory. -/
theorem loadDirectory (relating : Relating databases databases' RF RC OkF OkC) (files : List HarvestFile) :
    ∀ {state state' : Loading F C}, loadDirectory databases A W config fuel files state = some state' →
      Within OkF OkC state'.indexBuilder →
      Alike RF RC OkF OkC state state' (MathWebSearch.loadDirectory databases' A W config fuel files) := by
  induction files with
  | nil =>
    intro state state' loaded within
    obtain rfl := Option.some.inj loaded
    exact Alike.refl within
  | cons file rest ih =>
    intro state state' loaded within
    obtain ⟨⟨next, opened⟩, first, later⟩ := Option.bind_eq_some_iff.mp loaded
    have whole : ∀ state : Loading F' C', MathWebSearch.loadDirectory databases' A W config fuel (file :: rest) state =
        (MathWebSearch.loadFile databases' W config state file).bind fun result =>
          if result.2 then (MathWebSearch.logFile A config fuel result.1).bind
            (MathWebSearch.loadDirectory databases' A W config fuel rest) else some result.1 := fun state => rfl
    -- the same file is opened or not opened by both
    have combine : ∀ {then' : Loading F' C' → Option (Loading F' C')} (_ : opened = true → then' = fun state =>
        (MathWebSearch.logFile A config fuel state).bind (MathWebSearch.loadDirectory databases' A W config fuel rest))
        (_ : opened = false → then' = some), Within OkF OkC next.indexBuilder →
        Alike RF RC OkF OkC next state' then' →
        Alike RF RC OkF OkC state state' (MathWebSearch.loadDirectory databases' A W config fuel (file :: rest)) := by
      intro then' yes no withinNext alike
      obtain ⟨alikeFirst, sameFlag⟩ := relating.loadFile first withinNext
      obtain ⟨before, follows⟩ := alikeFirst.trans alike
      refine ⟨before, fun {formulaDb crawlDb} formulas crawls => ?_⟩
      obtain ⟨formulaDb', crawlDb', taken, formulas', crawls'⟩ := follows formulas crawls
      refine ⟨formulaDb', crawlDb', ?_, formulas', crawls'⟩
      obtain ⟨middle, took, took'⟩ := Option.bind_eq_some_iff.mp taken
      obtain ⟨result, opens, rfl⟩ := Option.map_eq_some_iff.mp took
      have flag : result.2 = opened := sameFlag opens
      rw [whole, opens, Option.bind_some, flag, ← took']
      cases opened with
      | true => rw [if_pos rfl, yes rfl]
      | false => rw [if_neg Bool.false_ne_true, no rfl]
    cases opened with
    | true =>
      obtain ⟨logged, wrote, done⟩ := Option.bind_eq_some_iff.mp later
      have alikeRest := ih done within
      have alikeLog : Alike RF RC OkF OkC next logged _ := Relating.logFile wrote alikeRest.1
      exact combine (fun _ => rfl) (fun wrong => absurd wrong Bool.noConfusion) alikeLog.1 (alikeLog.trans alikeRest)
    | false =>
      obtain rfl := Option.some.inj later
      exact combine (fun wrong => absurd wrong Bool.noConfusion) (fun _ => rfl) within (Alike.refl within)

/-- **All harvests are loaded alike**: related databases hold what the first ones hold, and the index, the dictionary,
the numbers and the log are the same. -/
theorem loadHarvests (relating : Relating databases databases' RF RC OkF OkC) {directories : List (List HarvestFile)}
    {builder : IndexBuilder F C} {loading : Loading F C}
    (loaded : loadHarvests databases A W config fuel directories builder = some loading)
    (within : Within OkF OkC loading.indexBuilder) {formulaDb : F'} {crawlDb : Option C'}
    (formulas : RF builder.formulaDb formulaDb) (crawls : Option.Rel RC builder.crawlDb crawlDb) :
    ∃ formulaDb' crawlDb', MathWebSearch.loadHarvests databases' A W config fuel directories
        (builder.withDatabases formulaDb crawlDb) = some (loading.withDatabases formulaDb' crawlDb') ∧
      RF loading.indexBuilder.formulaDb formulaDb' ∧ Option.Rel RC loading.indexBuilder.crawlDb crawlDb' := by
  have all : ∀ (directories : List (List HarvestFile)) {state state' : Loading F C},
      directories.foldlM (fun state files => MathWebSearch.loadDirectory databases A W config fuel files state) state =
        some state' → Within OkF OkC state'.indexBuilder → Alike RF RC OkF OkC state state' fun state =>
          directories.foldlM (fun state files => MathWebSearch.loadDirectory databases' A W config fuel files state) state := by
    intro directories
    induction directories with
    | nil =>
      intro state state' done within
      obtain rfl := Option.some.inj done
      exact Alike.refl within
    | cons files rest ih =>
      intro state state' done within
      rw [List.foldlM_cons, Option.bind_eq_bind, Option.bind_eq_some_iff] at done
      obtain ⟨next, first, later⟩ := done
      have alikeRest := ih later within
      exact (relating.loadDirectory files first alikeRest.1).trans alikeRest
  exact (all directories loaded within).2 formulas crawls

end Relating

end MathWebSearch
