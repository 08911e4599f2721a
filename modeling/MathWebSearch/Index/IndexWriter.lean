/-
**Writing an index to disk** (`createCompressedIndex`).

Harvests are loaded with the databases on disk. Then the index is exported into one file, and the dictionary into another.

* `createCompressedIndex` — the files of a directory.
* `relating_levDatabases` — the databases on disk store what those in memory store, within bounds.
* `imageSize_le` — the index takes bytes for the tokens of its formulas.
-/

import MathWebSearch.Dbc.LevCrawlDb
import MathWebSearch.Dbc.LevFormulaDb
import MathWebSearch.Index.IndexAccessor
import MathWebSearch.Index.Layout
import MathWebSearch.Index.LoadedHarvests
import Mathlib.Algebra.BigOperators.Group.Finset.Basic
import Mathlib.Algebra.Order.BigOperators.Group.Finset

namespace MathWebSearch

open CmmlToken IndexBuilder HarvestReader TmpIndexNode

/-! ### The code -/

/-- The databases on disk; `none` is a failed assertion while an occurrence is packed. -/
def levDatabases : Databases (Option LevFormulaDb) LevCrawlDb where
  insertFormula formulaDb formulaId crawlId formulaPath :=
    match formulaDb.bind fun formulaDb => formulaDb.insertFormula formulaId crawlId formulaPath with
    | some (formulaDb, ret) => (some formulaDb, ret)
    | none => (none, -1)
  putData := LevCrawlDb.putData

/-- The files of a directory with an index. -/
structure CompressedIndex where
  crawlDb : OrderedMap Str Str
  formulaDb : OrderedMap Str Str
  memsector : List UInt8
  meaningDictionary : Str

/-- `createCompressedIndex`, into a new directory: the files that it leaves there, or nothing with `EXIT_FAILURE`. The
outer `none` is a failed assertion or an exception. -/
def createCompressedIndex (W : TextWriter) (config : HarvesterConfiguration) (encoding : EncoderConfig) (nextId fuel : Nat)
    (directories : List (List HarvestFile)) : Option (Option CompressedIndex) := do
  let loading ← loadHarvests levDatabases tmpIndexAccessor W config fuel directories
    ⟨some .createNew, some .createNew, .empty nextId, .empty, encoding⟩
  if loading.numExpressions = 0 then return none
  else
    let indexBuilder := loading.indexBuilder
    let (mwsr, memsector) ← indexBuilder.index.exportToMemsector memsectorLongOffStart fuel Memsector.create
    let crawlDb ← indexBuilder.crawlDb
    let formulaDb ← indexBuilder.formulaDb
    if mwsr.held then
      return some ⟨crawlDb.mDatabase, formulaDb.mDatabase, memsector, indexBuilder.meaningDictionary.save⟩
    else none

/-! ### The databases store alike -/

/-- The occurrences under ids. -/
def MemFormulaDb.occurrences (db : MemFormulaDb) (ids : Finset Nat) : Nat := ∑ id ∈ ids, (db.mData id).length

/-- **Occurrences that the database on disk can hold**: its counter does not come round, and their texts fit a buffer. -/
structure MemFormulaDb.FitsDisk (db : MemFormulaDb) : Prop where
  few : ∀ ids, db.occurrences ids < 2 ^ 32
  short : ∀ id, ∀ info ∈ db.mData id, info.crawlId < 2 ^ 32 ∧
    info.formulaPath.xmlId.length + info.formulaPath.xpath.length + 64 < 2 ^ 64

/-- Both databases hold the same occurrences. -/
def SameFormulas (db : MemFormulaDb) (other : Option LevFormulaDb) : Prop :=
  ∃ lev calls, other = some lev ∧ lev.Stores calls ∧ ∀ id, db.mData id = LevFormulaDb.inserted calls id

theorem sameFormulas_new : SameFormulas .empty (some .createNew) := ⟨_, [], rfl, .createNew, fun _ => rfl⟩

/-- The occurrences under all ids are the calls. -/
theorem LevFormulaDb.length_eq_sum (calls : List InsertCall) :
    calls.length = ∑ id ∈ (calls.map InsertCall.formulaId).toFinset, (inserted calls id).length := by
  have counts : ∀ id, (inserted calls id).length = (calls.map InsertCall.formulaId).count id := by
    intro id
    rw [inserted, List.length_map, ← List.countP_eq_length_filter, List.count, List.countP_map]
    exact List.countP_congr fun call _ => by simp
  rw [Finset.sum_congr rfl fun id _ => counts id, List.sum_toFinset_count_eq_length, List.length_map]

/-- One more call. -/
theorem LevFormulaDb.inserted_concat (calls : List InsertCall) (call : InsertCall) (id : Nat) :
    inserted (calls ++ [call]) id =
      if id = call.formulaId then inserted calls id ++ [call.info] else inserted calls id := by
  rw [inserted, List.filter_append, List.map_append, ← inserted]
  by_cases same : call.formulaId = id
  · rw [if_pos same.symm, List.filter_cons_of_pos (by simpa using same)]
    rfl
  · rw [if_neg fun wrong => same wrong.symm, List.filter_cons_of_neg (by simpa using same)]
    exact List.append_nil _

/-- What the database in memory holds behind an insertion. -/
theorem MemFormulaDb.mData_insertFormula (db : MemFormulaDb) (id : Nat) (crawlId : CrawlId) (path : FormulaPath)
    (other : Nat) : (db.insertFormula id crawlId path).1.mData other =
      if other = id then db.mData other ++ [⟨crawlId, path⟩] else db.mData other := by
  show Function.update db.mData id _ other = _
  rw [Function.update_apply]
  exact if_ctx_congr Iff.rfl (fun same => by rw [same]) fun _ => rfl

/-- **Both databases store alike.** -/
theorem SameFormulas.insertFormula {db : MemFormulaDb} (id : Nat) (crawlId : CrawlId) (path : FormulaPath)
    (fits : (db.insertFormula id crawlId path).1.FitsDisk) : db.FitsDisk ∧ ∀ {other}, SameFormulas db other →
      SameFormulas (db.insertFormula id crawlId path).1 (levDatabases.insertFormula other id crawlId path).1 := by
  have grown := db.mData_insertFormula id crawlId path
  have within : ∀ other, ∀ info ∈ db.mData other, info ∈ (db.insertFormula id crawlId path).1.mData other := by
    intro other info member
    rw [grown]
    split_ifs
    · exact List.mem_append_left _ member
    · exact member
  refine ⟨⟨fun ids => lt_of_le_of_lt (Finset.sum_le_sum fun other _ => ?_) (fits.few ids),
    fun other info member => fits.short other info (within other info member)⟩, ?_⟩
  · rw [grown]
    split_ifs
    · rw [List.length_append]
      exact Nat.le_add_right _ _
    · exact le_rfl
  rintro _ ⟨lev, calls, rfl, stores, same⟩
  have inside : (⟨crawlId, path⟩ : FormulaInfo) ∈ (db.insertFormula id crawlId path).1.mData id := by
    rw [grown, if_pos rfl]
    exact List.mem_append_right _ (List.mem_singleton_self _)
  obtain ⟨small, short⟩ := fits.short id _ inside
  have held : ∀ other, (db.insertFormula id crawlId path).1.mData other =
      LevFormulaDb.inserted (calls ++ [⟨id, ⟨crawlId, path⟩, small, short⟩]) other := fun other => by
    rw [grown, LevFormulaDb.inserted_concat, same]
  have few : calls.length + 1 < 2 ^ 32 := by
    have length := LevFormulaDb.length_eq_sum (calls ++ [⟨id, ⟨crawlId, path⟩, small, short⟩])
    rw [List.length_append, List.length_singleton] at length
    rw [length, ← Finset.sum_congr rfl fun other _ => congrArg List.length (held other)]
    exact fits.few _
  obtain ⟨lev', inserted, stores'⟩ := stores.insertFormula ⟨id, ⟨crawlId, path⟩, small, short⟩ few
  refine ⟨lev', _, ?_, stores', held⟩
  have inserted : lev.insertFormula id crawlId path = some (lev', 0) := inserted
  simp only [levDatabases, Option.bind_some, inserted]

/-- **Texts that the database on disk can hold**: there are ids for them, and they fit a buffer. -/
structure MemCrawlDb.FitsDisk (db : MemCrawlDb) : Prop where
  few : db.mData.length < 2 ^ 32
  short : ∀ crawlId crawlData, db.getData crawlId = some crawlData → crawlData.length + 8 < 2 ^ 64

/-- A database fits when the texts that were put do. -/
theorem MemCrawlDb.Represents.fitsDisk {db : MemCrawlDb} {puts : List Str} (represents : db.Represents puts)
    (few : db.mData.length < 2 ^ 32) (short : ∀ crawlData ∈ puts, crawlData.length + 8 < 2 ^ 64) : db.FitsDisk := by
  refine ⟨few, fun crawlId crawlData found => short crawlData ?_⟩
  rw [represents.holds, CrawlDb.stored] at found
  split at found
  · cases found
  · exact List.mem_of_getElem? found

/-- Both databases hold the same texts. -/
def SameTexts (db : MemCrawlDb) (other : LevCrawlDb) : Prop :=
  ∃ puts, db.Represents puts ∧ other.Represents puts ∧ db.mData.length = puts.length

theorem sameTexts_new : SameTexts .empty .createNew :=
  ⟨[], MemCrawlDb.represents_empty, LevCrawlDb.represents_createNew, rfl⟩

/-- **The databases on disk store what the databases in memory store.** -/
theorem relating_levDatabases :
    Relating memDatabases levDatabases SameFormulas SameTexts MemFormulaDb.FitsDisk MemCrawlDb.FitsDisk where
  insertFormula id crawlId path fits := SameFormulas.insertFormula id crawlId path fits
  putData := by
    intro crawlDb crawlDb' crawlData crawlId put fits
    obtain ⟨few, short⟩ := fits
    have expanded : crawlDb.putData crawlData = some (crawlDb', crawlId) := put
    unfold MemCrawlDb.putData at expanded
    dsimp only at expanded
    split at expanded
    · cases expanded
    rename_i free
    obtain ⟨rfl, rfl⟩ := Prod.mk.inj (Option.some.inj expanded)
    have longer : crawlDb.mData.length + 1 < 2 ^ 32 := by
      rw [List.length_append, List.length_singleton] at few
      exact few
    have free := Option.not_isSome_iff_eq_none.mp free
    refine ⟨⟨by omega, fun id text found => short id text ?_⟩, ?_⟩
    · rw [MemCrawlDb.getData] at found ⊢
      rw [List.lookup_append, found, Option.some_or]
    rintro other ⟨puts, represents, represents', length⟩
    have here := represents.putData (length ▸ longer) crawlData
    obtain ⟨same, number⟩ := Prod.mk.inj (Option.some.inj (put.symm.trans here.1))
    have text : crawlData.length + 8 < 2 ^ 64 := by
      refine short ((crawlDb.mNextCrawlId + 1) % 2 ^ 32) crawlData ?_
      rw [MemCrawlDb.getData, List.lookup_append, free, List.lookup_cons_self]
      exact Option.none_or
    obtain ⟨other', put', represents''⟩ := LevCrawlDb.keeps.puts represents' (length ▸ longer) text
    refine ⟨other', number ▸ put', puts ++ [crawlData], same ▸ here.2, represents'', ?_⟩
    rw [List.length_append, List.length_append, length]
    rfl

/-! ### How much is stored -/

section Occurrences

variable {C : Type} {putData : C → Str → Option (C × CrawlId)}

/-- An insertion is one occurrence. -/
theorem MemFormulaDb.occurrences_insertFormula (db : MemFormulaDb) (id : Nat) (crawlId : CrawlId) (path : FormulaPath)
    (ids : Finset Nat) : (db.insertFormula id crawlId path).1.occurrences ids ≤ db.occurrences ids + 1 := by
  have each : ∀ other ∈ ids, ((db.insertFormula id crawlId path).1.mData other).length =
      (db.mData other).length + if other = id then 1 else 0 := by
    intro other _
    rw [mData_insertFormula]
    split_ifs
    · exact List.length_append
    · rfl
  rw [occurrences, occurrences, Finset.sum_congr rfl each, Finset.sum_add_distrib, Finset.sum_ite_eq']
  split_ifs <;> omega

/-- Every encoding is one occurrence at most. -/
theorem occurrences_insertEncodings {xmlId : Str} {crawlId : CrawlId} (ids : Finset Nat)
    (entries : List (Located × EncodedFormula)) : ∀ {state state' : Indexing MemFormulaDb C},
      insertEncodings ⟨MemFormulaDb.insertFormula, putData⟩ xmlId crawlId entries state = some state' →
        state'.builder.formulaDb.occurrences ids ≤ state.builder.formulaDb.occurrences ids + entries.length := by
  induction entries with
  | nil =>
    intro state state' inserted
    obtain rfl := Option.some.inj inserted
    exact le_rfl
  | cons entry rest ih =>
    intro state state' inserted
    rw [insertEncodings_cons, Option.bind_eq_some_iff] at inserted
    obtain ⟨next, first, later⟩ := inserted
    have behind := ih later
    have here : next.builder.formulaDb.occurrences ids ≤ state.builder.formulaDb.occurrences ids + 1 := by
      obtain ⟨⟨index, leaf⟩, -, same⟩ := Option.bind_eq_some_iff.mp first
      by_cases known : leaf.id ∈ state.uniqueFormulaIds
      · obtain rfl := Option.some.inj ((if_pos known).symm.trans same)
        exact Nat.le_succ _
      · obtain rfl := Option.some.inj ((if_neg known).symm.trans same)
        exact MemFormulaDb.occurrences_insertFormula _ _ _ _ ids
    rw [List.length_cons]
    omega

/-- **So is every formula of the calls.** -/
theorem occurrences_indexAll (ids : Finset Nat) (inputs : List (CmmlToken × Str × CrawlId)) :
    ∀ {self self' : IndexBuilder MemFormulaDb C} {numbers : List Int},
      indexAll ⟨MemFormulaDb.insertFormula, putData⟩ inputs self = some (self', numbers) →
        self'.formulaDb.occurrences ids ≤ self.formulaDb.occurrences ids +
          ((callsOf self.indexingOptions self.meaningDictionary inputs).map fun call => call.formulas.length).sum := by
  induction inputs with
  | nil =>
    intro self self' numbers indexed
    obtain ⟨rfl, -⟩ := Prod.mk.inj (Option.some.inj indexed)
    exact Nat.le_add_right _ _
  | cons input rest ih =>
    intro self self' numbers indexed
    obtain ⟨⟨next, number⟩, first, later⟩ := Option.bind_eq_some_iff.mp indexed
    obtain ⟨⟨last, others⟩, behind, same⟩ := Option.bind_eq_some_iff.mp later
    obtain ⟨rfl, -⟩ := Prod.mk.inj (Option.some.inj same)
    have below := ih behind
    rw [indexContentMath_eq] at first
    obtain ⟨state, inserted, made⟩ := Option.map_eq_some_iff.mp first
    obtain ⟨rfl, -⟩ := Prod.mk.inj made
    have kept : state.builder.indexingOptions = self.indexingOptions := (insertEncodings_kept _ _ inserted).1
    have here := occurrences_insertEncodings ids _ inserted
    have length : (callOf self.indexingOptions self.meaningDictionary input).formulas.length =
        (encodings self.indexingOptions self.meaningDictionary input.1).length := List.length_map _
    rw [callsOf, List.map_cons, List.sum_cons, length, ← Nat.add_assoc]
    refine le_trans below (Nat.add_le_add here (le_of_eq ?_))
    show ((callsOf state.builder.indexingOptions _ rest).map _).sum = _
    rw [kept]

end Occurrences

/-! ### The size of the image -/

namespace TmpIndex

/-- The tokens of the formulas below a node. -/
def tokensBelow (entries : List (EncodedFormula × TmpLeaf)) : Nat := (entries.map fun entry => entry.1.length).sum

theorem tokensBelow_append (front back : List (EncodedFormula × TmpLeaf)) :
    tokensBelow (front ++ back) = tokensBelow front + tokensBelow back := by
  rw [tokensBelow, List.map_append, List.sum_append]
  rfl

/-- One more token in front of each. -/
theorem tokensBelow_cons (token : EncodedToken) (entries : List (EncodedFormula × TmpLeaf)) :
    tokensBelow (entries.map fun entry => (token :: entry.1, entry.2)) = tokensBelow entries + entries.length := by
  induction entries with
  | nil => rfl
  | cons entry rest ih =>
    simp only [tokensBelow, List.map_cons, List.sum_cons, List.length_cons] at ih ⊢
    omega

/-- Children that take bytes for the tokens below them. -/
theorem imageSizeOf_le {children : List (EncodedToken × TmpIndexNode)}
    (each : ∀ entry ∈ children, TmpIndexNode.leaves entry.2 ≠ [] ∧
      imageSize entry.2 ≤ 8 + 16 * tokensBelow (TmpIndexNode.leaves entry.2)) :
    8 * children.length + imageSizeOf children ≤ 16 * tokensBelow (leavesOf children) := by
  induction children with
  | nil => exact le_rfl
  | cons entry rest ih =>
    obtain ⟨some, here⟩ := each entry List.mem_cons_self
    have positive := List.length_pos_iff.mpr some
    have later := ih fun other member => each other (List.mem_cons_of_mem _ member)
    rw [leavesOf, imageSizeOf_cons, tokensBelow_append, tokensBelow_cons, List.length_cons]
    omega

/-- **A node takes sixteen bytes for every token below it**, and eight, at most. -/
theorem imageSize_le {opened : Nat} {node : TmpIndexNode} (shape : WellFormed opened node) :
    imageSize node ≤ 8 + 16 * tokensBelow (TmpIndexNode.leaves node) := by
  induction shape with
  | leaf leaf => exact le_rfl
  | @inner opened children nonempty sorted below ih =>
    have sizes := imageSizeOf_le fun entry member => ⟨leaves_ne_nil (below entry member), ih entry member⟩
    rw [leaves_inner, imageSize]
    omega

/-- The tokens of different formulas among others. -/
theorem tokensBelow_le {index : TmpIndex} (nodup : (index.leaves.map Prod.fst).Nodup) {formulas : List EncodedFormula}
    (among : ∀ entry ∈ index.leaves, entry.1 ∈ formulas) :
    tokensBelow index.leaves ≤ (formulas.map List.length).sum := by
  obtain ⟨sublist, perm, inside⟩ := List.subperm_of_subset nodup fun formula member => by
    obtain ⟨entry, stored, rfl⟩ := List.mem_map.mp member
    exact among entry stored
  calc tokensBelow index.leaves = ((index.leaves.map Prod.fst).map List.length).sum := by rw [List.map_map]; rfl
    _ = (sublist.map List.length).sum := ((perm.map List.length).sum_eq).symm
    _ ≤ (formulas.map List.length).sum := (inside.map List.length).sum_le_sum fun _ _ => Nat.zero_le _

/-- **The image of an index can be addressed**, when the formulas in it have few tokens. -/
theorem startsLow_create {index : TmpIndex} (shape : WellFormed 1 index.root)
    (few : 16 * tokensBelow index.leaves + 36 < 2 ^ 34) :
    StartsLow memsectorLongOffStart index.root.children Memsector.create := by
  have size := imageSize_le shape
  rw [imageSize_eq] at size
  refine .inr ⟨rfl, ?_⟩
  have start : Memsector.position Memsector.create = 28 := rfl
  have below : tokensBelow (TmpIndexNode.leaves index.root) = tokensBelow index.leaves := rfl
  omega

end TmpIndex

/-! ### The files -/

section Quiet

variable {F C : Type} {databases : Databases F C} {A : Accessor TmpIndex TmpIndexNode TmpIterator} {W : TextWriter}
  {config : HarvesterConfiguration}

/-- Without a log file, nothing is enumerated while a directory is loaded. -/
theorem loadDirectory_quiet (quiet : config.logging = false) (fuel fuel' : Nat) (files : List HarvestFile) :
    ∀ state : Loading F C, loadDirectory databases A W config fuel files state =
      loadDirectory databases A W config fuel' files state := by
  have logs : ∀ (fuel : Nat) (state : Loading F C), logFile A config fuel state = some state := fun fuel state => by
    rw [logFile, if_neg (by rw [quiet]; exact Bool.false_ne_true)]
  induction files with
  | nil => exact fun _ => rfl
  | cons file rest ih =>
    intro state
    rw [loadDirectory, loadDirectory]
    simp only [logs, ih]

/-- Nor while all harvests are loaded. -/
theorem loadHarvests_quiet (quiet : config.logging = false) (fuel fuel' : Nat) (directories : List (List HarvestFile))
    (builder : IndexBuilder F C) : loadHarvests databases A W config fuel directories builder =
      loadHarvests databases A W config fuel' directories builder := by
  rw [loadHarvests, loadHarvests]
  exact congrArg (fun step => directories.foldlM step _)
    (funext fun state => funext fun files => loadDirectory_quiet quiet fuel fuel' files state)

end Quiet

section Files

variable {W : TextWriter} {config : HarvesterConfiguration} {encoding : EncoderConfig} {nextId : Nat}
  {directories : List (List HarvestFile)}

/-- **What is in the files**: the texts and occurrences that the loading into memory stores, an image that represents
the index, and the dictionary. -/
theorem createCompressedIndex_of_loaded (quiet : config.logging = false) {loading : Loading MemFormulaDb MemCrawlDb}
    {crawlDb : MemCrawlDb} (loaded : loadHarvests memDatabases tmpIndexAccessor W config 0 directories
      ⟨.empty, some .empty, .empty nextId, .empty, encoding⟩ = some loading)
    (has : loading.indexBuilder.crawlDb = some crawlDb) (texts : crawlDb.FitsDisk)
    (occurrences : loading.indexBuilder.formulaDb.FitsDisk) (notZero : loading.numExpressions ≠ 0)
    (shape : WellFormed 1 loading.indexBuilder.index.root) (hits : ∀ entry ∈ loading.indexBuilder.index.leaves, Fits entry.2)
    (few : 16 * TmpIndex.tokensBelow loading.indexBuilder.index.leaves + 36 < 2 ^ 34) :
    ∃ lev formulas memsector header enough, SameTexts crawlDb lev ∧
      SameFormulas loading.indexBuilder.formulaDb (some formulas) ∧ Memsector.load memsector = some header ∧
      Represents Fits memsector loading.indexBuilder.index.root (Memsector.getRoot header) ∧
      ∀ fuel, enough ≤ fuel → createCompressedIndex W config encoding nextId fuel directories =
        some (some ⟨lev.mDatabase, formulas.mDatabase, memsector, loading.indexBuilder.meaningDictionary.save⟩) := by
  have within : Relating.Within MemFormulaDb.FitsDisk MemCrawlDb.FitsDisk loading.indexBuilder :=
    ⟨occurrences, fun other same => Option.some.inj (has.symm.trans same) ▸ texts⟩
  obtain ⟨formulaDb, crawls, onDisk, sameFormulas, sameCrawls⟩ := relating_levDatabases.loadHarvests loaded within
    sameFormulas_new (Option.Rel.some sameTexts_new)
  rw [has] at sameCrawls
  obtain ⟨formulas, calls, rfl, stores, same⟩ := sameFormulas
  obtain ⟨enough, mswr, memsector, exported, -, opens⟩ :=
    TmpIndex.exported_spec (show memsectorLongOffStart ≤ 2 ^ 32 from le_rfl) shape hits
  obtain ⟨-, held, header, load, rep⟩ := opens (TmpIndex.startsLow_create shape few)
  cases sameCrawls with
  | some sameTexts =>
    rename_i lev
    refine ⟨lev, formulas, memsector, header, enough, sameTexts, ⟨formulas, calls, rfl, stores, same⟩, load,
      ⟨⟨1, shape⟩, rep⟩, fun fuel more => ?_⟩
    have start : IndexBuilder.withDatabases (⟨MemFormulaDb.empty, some MemCrawlDb.empty, .empty nextId, .empty, encoding⟩)
        (some LevFormulaDb.createNew) (some LevCrawlDb.createNew) =
      ⟨some .createNew, some .createNew, .empty nextId, .empty, encoding⟩ := rfl
    rw [start, loadHarvests_quiet quiet 0 fuel] at onDisk
    have number : (loading.withDatabases (some formulas) (some lev)).numExpressions = loading.numExpressions := rfl
    have index : (loading.withDatabases (some formulas) (some lev)).indexBuilder.index = loading.indexBuilder.index := rfl
    rw [createCompressedIndex, onDisk, Option.bind_eq_bind, Option.bind_some, if_neg (number ▸ notZero)]
    simp only [index, exported fuel more, Option.bind_eq_bind, Option.bind_some, held, if_true]
    rfl

end Files

end MathWebSearch
