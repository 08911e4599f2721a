/-
**Building the index** (`mws/index/IndexBuilder.cpp`).

`indexContentMath` encodes every subexpression of an expression with one encoder, inserts the encodings that were
accepted, and stores an occurrence in the formula database for each formula that it has not met before in the same
expression.

* `encodings` — the formulas that are inserted for an expression, with the nodes they come from.
* `Tracks` — what holds between the expressions indexed so far, the index and the database in memory: under the id of the
  leaf of a formula there is one record for each expression the formula occurs in, of its first occurrence there, and
  the leaf counts them.
* `indexContentMath_tracks` — one call keeps it up, and returns the number of different formulas, as an `int`.
* `indexAll_tracks` — so does a sequence of calls.
-/

import MathWebSearch.Types.Query
import MathWebSearch.Dbc.MemDb
import MathWebSearch.Index.EncodedShape
import MathWebSearch.Index.TrieContents

namespace MathWebSearch

open CmmlToken PrefixCode TmpIndexNode ExpressionEncoder

/-- What indexing uses of a `FormulaDb` and of a `CrawlDb`; `putData` may throw. -/
structure Databases (F C : Type) where
  insertFormula : F → Nat → CrawlId → FormulaPath → F × Int
  putData : C → Str → Option (C × CrawlId)

/-- The databases in memory. -/
def memDatabases : Databases MemFormulaDb MemCrawlDb := ⟨MemFormulaDb.insertFormula, MemCrawlDb.putData⟩

/-- The members of an `IndexBuilder`, with what they point to. -/
structure IndexBuilder (F C : Type) where
  formulaDb : F
  crawlDb : Option C
  index : TmpIndex
  meaningDictionary : MeaningDictionary
  indexingOptions : EncoderConfig

namespace IndexBuilder

section Functions

variable {F C : Type} (databases : Databases F C)

/-- `indexCrawlData`. -/
def indexCrawlData (self : IndexBuilder F C) (crawlData : Str) : Option (IndexBuilder F C × CrawlId) :=
  match self.crawlDb with
  | some crawlDb => do
    let (crawlDb, crawlId) ← databases.putData crawlDb crawlData
    return ({ self with crawlDb := some crawlDb }, crawlId)
  | none => some (self, crawlIdNull)

/-- The variables of `indexContentMath` between two subexpressions; `encoder` points to the dictionary of the builder, and
`numSubExpressions` is an `int`. -/
structure Indexing (F C : Type) where
  builder : IndexBuilder F C
  encoder : ExpressionEncoder
  uniqueFormulaIds : List Nat
  numSubExpressions : Int

/-- Inserting an encoding: the part of the callback behind `encode`. -/
def insertEncoding (xmlId : Str) (crawlId : CrawlId) (state : Indexing F C) (token : Located)
    (encodedFormula : EncodedFormula) : Option (Indexing F C) := do
  let (index, leaf) ← state.builder.index.insertData encodedFormula
  let formulaId := leaf.id
  if formulaId ∈ state.uniqueFormulaIds then return { state with builder := { state.builder with index } }
  else
    let (formulaDb, _) := databases.insertFormula state.builder.formulaDb formulaId crawlId ⟨xmlId, token.getXpath⟩
    return { state with
      builder := { state.builder with index := index.addSolution encodedFormula, formulaDb }
      uniqueFormulaIds := formulaId :: state.uniqueFormulaIds
      numSubExpressions := castInt (state.numSubExpressions + 1) }

/-- `encode` with the encoder of `indexContentMath`, which asks for no information on variables and ranges. -/
def encodeSubexpression (config : EncoderConfig) (encoder : ExpressionEncoder) (token : Located) :
    ExpressionEncoder × EncodedFormula × Int :=
  let (round, rv) := encode (D := .whole) .harvest encoder config token none
  (round.encoder, round.encodedFormula, rv)

/-- The callback for a subexpression. -/
def indexSubexpression (xmlId : Str) (crawlId : CrawlId) (state : Indexing F C) (token : Located) :
    Option (Indexing F C) :=
  let (encoder, encodedFormula, rv) := encodeSubexpression state.builder.indexingOptions state.encoder token
  let state := { state with
    builder := { state.builder with meaningDictionary := encoder.meaningDictionary }, encoder }
  -- a formula that could not be encoded is skipped
  if rv ≠ 0 then some state else insertEncoding databases xmlId crawlId state token encodedFormula

/-- `indexContentMath`. -/
def indexContentMath (self : IndexBuilder F C) (cmmlToken : CmmlToken) (xmlId : Str) (crawlId : CrawlId) :
    Option (IndexBuilder F C × Int) := do
  let state ← (foreachSubexpression cmmlToken).foldlM (indexSubexpression databases xmlId crawlId)
    ⟨self, .new self.meaningDictionary, [], 0⟩
  return (state.builder, state.numSubExpressions)

end Functions

/-! ### The encodings of an expression -/

/-- The encoder behind subexpressions. -/
def encoderAfter (config : EncoderConfig) (encoder : ExpressionEncoder) (tokens : List Located) : ExpressionEncoder :=
  tokens.foldl (fun encoder token => (encodeSubexpression config encoder token).1) encoder

/-- The encodings of subexpressions that are accepted, with their nodes. -/
def encodingsFrom (config : EncoderConfig) : ExpressionEncoder → List Located → List (Located × EncodedFormula)
  | _, [] => []
  | encoder, token :: rest =>
    let encoded := encodeSubexpression config encoder token
    if encoded.2.2 = 0 then (token, encoded.2.1) :: encodingsFrom config encoded.1 rest
    else encodingsFrom config encoded.1 rest

/-- **The formulas that are inserted for an expression**, with the nodes they come from. -/
def encodings (config : EncoderConfig) (dictionary : MeaningDictionary) (expression : CmmlToken) :
    List (Located × EncodedFormula) :=
  encodingsFrom config (.new dictionary) (foreachSubexpression expression)

/-- The dictionary behind an expression. -/
def dictionaryAfter (config : EncoderConfig) (dictionary : MeaningDictionary) (expression : CmmlToken) :
    MeaningDictionary :=
  (encoderAfter config (.new dictionary) (foreachSubexpression expression)).meaningDictionary

section Encodings

variable {F C : Type} (databases : Databases F C)

/-- The encoder moves on, and the dictionary of the builder with it. -/
def Indexing.moveTo (state : Indexing F C) (encoder : ExpressionEncoder) : Indexing F C :=
  { state with builder := { state.builder with meaningDictionary := encoder.meaningDictionary }, encoder }

/-- Inserting does not look at the encoder. -/
theorem insertEncoding_moveTo (xmlId : Str) (crawlId : CrawlId) (state : Indexing F C) (token : Located)
    (formula : EncodedFormula) (encoder : ExpressionEncoder) :
    insertEncoding databases xmlId crawlId (state.moveTo encoder) token formula =
      (insertEncoding databases xmlId crawlId state token formula).map (·.moveTo encoder) := by
  show (state.builder.index.insertData formula).bind _ = ((state.builder.index.insertData formula).bind _).map _
  cases state.builder.index.insertData formula with
  | none => rfl
  | some inserted =>
    show ite (inserted.2.id ∈ state.uniqueFormulaIds) _ _ =
      Option.map _ (ite (inserted.2.id ∈ state.uniqueFormulaIds) _ _)
    split <;> rfl

/-- Inserting changes neither the options nor the crawl database. -/
theorem insertEncoding_kept {xmlId : Str} {crawlId : CrawlId} {state state' : Indexing F C} {token : Located}
    {formula : EncodedFormula} (inserted : insertEncoding databases xmlId crawlId state token formula = some state') :
    state'.builder.indexingOptions = state.builder.indexingOptions ∧
      state'.builder.crawlDb = state.builder.crawlDb := by
  have expanded : ((state.builder.index.insertData formula).bind _) = some state' := inserted
  cases found : state.builder.index.insertData formula with
  | none => rw [found] at expanded; cases expanded
  | some result =>
    rw [found] at expanded
    have branches : ite (result.2.id ∈ state.uniqueFormulaIds) _ _ = some state' := expanded
    split at branches <;> cases branches <;> exact ⟨rfl, rfl⟩

/-- The callback as encoding and inserting. -/
theorem indexSubexpression_eq (xmlId : Str) (crawlId : CrawlId) (state : Indexing F C) (token : Located) :
    indexSubexpression databases xmlId crawlId state token =
      let encoded := encodeSubexpression state.builder.indexingOptions state.encoder token
      if encoded.2.2 = 0 then
        (insertEncoding databases xmlId crawlId state token encoded.2.1).map (·.moveTo encoded.1)
      else some (state.moveTo encoded.1) := by
  simp only [← insertEncoding_moveTo]
  by_cases ok : (encodeSubexpression state.builder.indexingOptions state.encoder token).2.2 = 0
  · rw [if_pos ok]
    exact if_neg (not_not.mpr ok)
  · rw [if_neg ok]
    exact if_pos ok

/-- Inserting encodings one after the other. -/
def insertEncodings (xmlId : Str) (crawlId : CrawlId) (entries : List (Located × EncodedFormula))
    (state : Indexing F C) : Option (Indexing F C) :=
  entries.foldlM (fun state entry => insertEncoding databases xmlId crawlId state entry.1 entry.2) state

theorem insertEncodings_moveTo (xmlId : Str) (crawlId : CrawlId) (entries : List (Located × EncodedFormula))
    (encoder : ExpressionEncoder) : ∀ state : Indexing F C,
      insertEncodings databases xmlId crawlId entries (state.moveTo encoder) =
        (insertEncodings databases xmlId crawlId entries state).map (·.moveTo encoder) := by
  induction entries with
  | nil => intro state; rfl
  | cons entry rest ih =>
    intro state
    rw [insertEncodings, insertEncodings, List.foldlM_cons, List.foldlM_cons, insertEncoding_moveTo]
    cases insertEncoding databases xmlId crawlId state entry.1 entry.2 with
    | none => rfl
    | some next => exact ih next

theorem insertEncodings_cons (xmlId : Str) (crawlId : CrawlId) (entry : Located × EncodedFormula)
    (rest : List (Located × EncodedFormula)) (state : Indexing F C) :
    insertEncodings databases xmlId crawlId (entry :: rest) state =
      (insertEncoding databases xmlId crawlId state entry.1 entry.2).bind
        (insertEncodings databases xmlId crawlId rest) := rfl

theorem insertEncodings_kept {xmlId : Str} {crawlId : CrawlId} (entries : List (Located × EncodedFormula)) :
    ∀ {state state' : Indexing F C}, insertEncodings databases xmlId crawlId entries state = some state' →
      state'.builder.indexingOptions = state.builder.indexingOptions ∧
        state'.builder.crawlDb = state.builder.crawlDb := by
  induction entries with
  | nil =>
    intro state state' inserted
    obtain rfl := Option.some.inj inserted
    exact ⟨rfl, rfl⟩
  | cons entry rest ih =>
    intro state state' inserted
    rw [insertEncodings_cons, Option.bind_eq_some_iff] at inserted
    obtain ⟨next, first, later⟩ := inserted
    obtain ⟨options, crawlDb⟩ := insertEncoding_kept databases first
    obtain ⟨optionsLater, crawlDbLater⟩ := ih later
    exact ⟨optionsLater.trans options, crawlDbLater.trans crawlDb⟩

/-- The loop over the subexpressions: encode all of them, then insert what was accepted. -/
theorem foldlM_indexSubexpression (xmlId : Str) (crawlId : CrawlId) (tokens : List Located) :
    ∀ state : Indexing F C, state.moveTo state.encoder = state →
      tokens.foldlM (indexSubexpression databases xmlId crawlId) state =
        (insertEncodings databases xmlId crawlId
          (encodingsFrom state.builder.indexingOptions state.encoder tokens) state).map
          (·.moveTo (encoderAfter state.builder.indexingOptions state.encoder tokens)) := by
  induction tokens with
  | nil =>
    intro state settled
    exact congrArg some settled.symm
  | cons token rest ih =>
    intro state settled
    rw [List.foldlM_cons, indexSubexpression_eq, encodingsFrom]
    generalize encodedEq : encodeSubexpression state.builder.indexingOptions state.encoder token = encoded
    have after : encoderAfter state.builder.indexingOptions state.encoder (token :: rest) =
        encoderAfter state.builder.indexingOptions encoded.1 rest := by
      rw [encoderAfter, List.foldl_cons, encodedEq]
      rfl
    rw [after]
    by_cases ok : encoded.2.2 = 0
    · simp only [if_pos ok, insertEncodings_cons]
      cases inserted : insertEncoding databases xmlId crawlId state token encoded.2.1 with
      | none => rfl
      | some next =>
        have options : (next.moveTo encoded.1).builder.indexingOptions = state.builder.indexingOptions := by
          show next.builder.indexingOptions = _
          exact (insertEncoding_kept databases inserted).1
        have rest := ih (next.moveTo encoded.1) rfl
        rw [options, insertEncodings_moveTo, Option.map_map] at rest
        exact rest
    · simp only [if_neg ok]
      have rest := ih (state.moveTo encoded.1) rfl
      rw [insertEncodings_moveTo, Option.map_map] at rest
      exact rest

/-- **`indexContentMath` inserts the encodings of the expression.** -/
theorem indexContentMath_eq (self : IndexBuilder F C) (cmmlToken : CmmlToken) (xmlId : Str) (crawlId : CrawlId) :
    self.indexContentMath databases cmmlToken xmlId crawlId =
      (insertEncodings databases xmlId crawlId (encodings self.indexingOptions self.meaningDictionary cmmlToken)
        ⟨self, .new self.meaningDictionary, [], 0⟩).map fun state =>
          ({ state.builder with
            meaningDictionary := dictionaryAfter self.indexingOptions self.meaningDictionary cmmlToken },
            state.numSubExpressions) := by
  rw [indexContentMath, foldlM_indexSubexpression databases xmlId crawlId _ _ rfl]
  show Option.bind (Option.map _ (insertEncodings _ _ _ (encodings self.indexingOptions _ _) _)) _ = _
  cases insertEncodings databases xmlId crawlId (encodings self.indexingOptions self.meaningDictionary cmmlToken)
    ⟨self, .new self.meaningDictionary, [], 0⟩ <;> rfl

end Encodings

/-! ### Records and counters -/

/-- A call of `indexContentMath`: what it stores with the records, and what it inserts. -/
structure Call where
  xmlId : Str
  crawlId : CrawlId
  encodings : List (Located × EncodedFormula)

namespace Call

/-- The formulas of a call. -/
def formulas (call : Call) : List EncodedFormula := call.encodings.map Prod.snd

/-- The record of a formula: of the first node it comes from. -/
def record? (call : Call) (formula : EncodedFormula) : Option FormulaInfo :=
  (call.encodings.find? fun entry => entry.2 = formula).map fun entry =>
    ⟨call.crawlId, call.xmlId, entry.1.getXpath⟩

/-- One more encoding. -/
def add (call : Call) (entry : Located × EncodedFormula) : Call :=
  { call with encodings := call.encodings ++ [entry] }

theorem formulas_add (call : Call) (entry : Located × EncodedFormula) :
    (call.add entry).formulas = call.formulas ++ [entry.2] := by
  rw [formulas, add, List.map_append]
  rfl

theorem record?_eq_none {call : Call} {formula : EncodedFormula} : call.record? formula = none ↔
    formula ∉ call.formulas := by
  rw [record?, Option.map_eq_none_iff, List.find?_eq_none, formulas, List.mem_map]
  constructor
  · rintro different ⟨entry, member, same⟩
    exact different entry member (decide_eq_true same)
  · intro absent entry member same
    exact absent ⟨entry, member, of_decide_eq_true same⟩

theorem record?_add_of_ne (call : Call) (entry : Located × EncodedFormula) {formula : EncodedFormula}
    (old : formula ≠ entry.2 ∨ formula ∈ call.formulas) : (call.add entry).record? formula = call.record? formula := by
  rw [record?, record?, add, List.find?_append]
  cases found : call.encodings.find? fun entry => entry.2 = formula with
  | some first => rfl
  | none =>
    rcases old with different | member
    · rw [List.find?_singleton, if_neg (by simpa using fun same => different same.symm)]
      rfl
    · exact absurd member (record?_eq_none.mp (by rw [record?, found]; rfl))

theorem record?_add_self (call : Call) (entry : Located × EncodedFormula) (new : entry.2 ∉ call.formulas) :
    (call.add entry).record? entry.2 = some ⟨call.crawlId, call.xmlId, entry.1.getXpath⟩ := by
  have absent := record?_eq_none.mpr new
  rw [record?, Option.map_eq_none_iff] at absent
  rw [record?, add, List.find?_append, absent, List.find?_singleton, if_pos (decide_eq_true rfl)]
  rfl

end Call

/-- **The records of a formula**: one for each call it occurs in, in their order. -/
def recordsOf (history : List Call) (formula : EncodedFormula) : List FormulaInfo :=
  history.filterMap (·.record? formula)

theorem recordsOf_concat (history : List Call) (call : Call) (formula : EncodedFormula) :
    recordsOf (history ++ [call]) formula = recordsOf history formula ++ (call.record? formula).toList := by
  rw [recordsOf, List.filterMap_append, recordsOf]
  cases record : call.record? formula with
  | none => simp [record]
  | some info => simp [record]

/-- The number of calls a formula occurs in. -/
theorem length_recordsOf (history : List Call) (formula : EncodedFormula) :
    (recordsOf history formula).length = history.countP fun call => formula ∈ call.formulas := by
  rw [recordsOf, List.length_filterMap_eq_countP]
  refine List.countP_congr fun call _ => ?_
  rw [decide_eq_true_iff, ← not_iff_not, ← Call.record?_eq_none]
  simp

/-- **What holds between the calls so far, the index and the database.** -/
structure Tracks (history : List Call) (index : TmpIndex) (formulaDb : MemFormulaDb) : Prop where
  grown : index.Grown (history.flatMap Call.formulas)
  records : ∀ formula leaf, index.leafAt formula = some leaf → formulaDb.mData leaf.id = recordsOf history formula
  solutions : ∀ formula leaf, index.leafAt formula = some leaf →
    leaf.solutions = (recordsOf history formula).length % 2 ^ 32
  unused : ∀ id, (∀ formula leaf, index.leafAt formula = some leaf → leaf.id ≠ id) → formulaDb.mData id = []

/-- Nothing has been indexed yet. -/
theorem tracks_empty (nextId : Nat) : Tracks [] (.empty nextId) .empty where
  grown := .empty nextId
  records formula leaf stored := by
    rw [TmpIndex.leafAt, TmpIndex.empty, leafAt_newNode] at stored
    cases stored
  solutions formula leaf stored := by
    rw [TmpIndex.leafAt, TmpIndex.empty, leafAt_newNode] at stored
    cases stored
  unused _ _ := rfl

/-- A leaf belongs to one formula, until the counter of the ids has gone round. -/
theorem formula_of_id {formulas : List EncodedFormula} {index : TmpIndex} (grown : index.Grown formulas)
    (few : index.leaves.length ≤ 2 ^ 32) {formula formula' : EncodedFormula} {leaf leaf' : TmpLeaf}
    (stored : index.leafAt formula = some leaf) (stored' : index.leafAt formula' = some leaf')
    (same : leaf.id = leaf'.id) : formula = formula' := by
  have member := grown.shaped.mem_leaves.mpr stored
  have member' := grown.shaped.mem_leaves.mpr stored'
  exact congrArg Prod.fst (List.inj_on_of_nodup_map (grown.ids_nodup few) member member' same)

/-- **The state of `indexContentMath`** when the encodings of `call` have been inserted. -/
structure Midway {C : Type} (history : List Call) (call : Call) (state : Indexing MemFormulaDb C) : Prop where
  tracks : Tracks (history ++ [call]) state.builder.index state.builder.formulaDb
  unique : ∀ id, id ∈ state.uniqueFormulaIds ↔
    ∃ formula ∈ call.formulas, ∃ leaf, state.builder.index.leafAt formula = some leaf ∧ leaf.id = id
  count : state.numSubExpressions = castInt call.formulas.toFinset.card

section Steps

variable {C : Type} {history : List Call} {call : Call} {state : Indexing MemFormulaDb C}
  {entry : Located × EncodedFormula}

/-- A formula that the call has met before. -/
theorem Midway.again (midway : Midway history call state) (complete : entry.2.IsPrefixCode)
    (member : entry.2 ∈ call.formulas) (putData : C → Str → Option (C × CrawlId)) :
    ∃ state', insertEncoding ⟨MemFormulaDb.insertFormula, putData⟩ call.xmlId call.crawlId state entry.1 entry.2 =
        some state' ∧ Midway history (call.add entry) state' := by
  obtain ⟨tracks, unique, count⟩ := midway
  have known : entry.2 ∈ (history ++ [call]).flatMap Call.formulas :=
    List.mem_flatMap.mpr ⟨call, by simp, member⟩
  obtain ⟨leaf, stored⟩ := Option.isSome_iff_exists.mp ((tracks.grown.leafAt_isSome _).mpr known)
  obtain ⟨index', leaf', inserted, shape, change, allocated⟩ := TmpIndex.insertData_spec tracks.grown.shaped complete
  obtain rfl : leaf' = leaf := by
    rcases allocated with ⟨before, _⟩ | ⟨before, _⟩
    · exact Option.some.inj (before.symm.trans stored)
    · rw [stored] at before
      cases before
  have same : ∀ path, index'.leafAt path = state.builder.index.leafAt path := by
    intro path
    rw [change]
    by_cases here : path = entry.2
    · rw [if_pos here, here, stored]
    · rw [if_neg here]
  have found : leaf'.id ∈ state.uniqueFormulaIds := (unique _).mpr ⟨_, member, leaf', stored, rfl⟩
  have records : ∀ formula, recordsOf (history ++ [call.add entry]) formula = recordsOf (history ++ [call]) formula := by
    intro formula
    have old : formula ≠ entry.2 ∨ formula ∈ call.formulas := by
      by_cases here : formula = entry.2
      · exact Or.inr (here ▸ member)
      · exact Or.inl here
    rw [recordsOf_concat, recordsOf_concat, call.record?_add_of_ne entry old]
  refine ⟨{ state with builder := { state.builder with index := index' } }, ?_, ⟨?_, ?_, ?_, ?_⟩, ?_, ?_⟩
  · rw [insertEncoding, inserted]
    exact if_pos found
  · have grown := TmpIndex.Grown.insertData tracks.grown complete inserted
    rw [List.flatMap_append, List.flatMap_singleton, List.append_assoc] at grown
    rw [List.flatMap_append, List.flatMap_singleton, Call.formulas_add]
    exact grown
  · intro formula leaf stored
    rw [records]
    exact tracks.records formula leaf ((same formula).symm.trans stored)
  · intro formula leaf stored
    rw [records]
    exact tracks.solutions formula leaf ((same formula).symm.trans stored)
  · intro id free
    exact tracks.unused id fun formula leaf stored => free formula leaf ((same formula).trans stored)
  · intro id
    show id ∈ state.uniqueFormulaIds ↔ ∃ formula ∈ (call.add entry).formulas, ∃ leaf, index'.leafAt formula = some leaf ∧ _
    rw [unique, Call.formulas_add]
    simp only [same, List.mem_append, List.mem_singleton]
    constructor
    · rintro ⟨formula, inside, rest⟩
      exact ⟨formula, Or.inl inside, rest⟩
    · rintro ⟨formula, inside | rfl, rest⟩
      · exact ⟨formula, inside, rest⟩
      · exact ⟨_, member, rest⟩
  · show state.numSubExpressions = _
    rw [count, Call.formulas_add, List.toFinset_append, List.toFinset_cons, List.toFinset_nil, insert_empty_eq,
      Finset.union_eq_left.mpr (by simpa using member)]

/-- What is stored for a formula that the call has not met before. -/
theorem Midway.before (midway : Midway history call state) {index' : TmpIndex} {leaf : TmpLeaf}
    (few : state.builder.index.leaves.length < 2 ^ 32 ∨ state.builder.index.leafAt entry.2 ≠ none)
    (allocated : Allocated (state.builder.index.leafAt entry.2) leaf state.builder.index.nextId index'.nextId) :
    state.builder.formulaDb.mData leaf.id = recordsOf (history ++ [call]) entry.2 ∧
      leaf.solutions = (recordsOf (history ++ [call]) entry.2).length % 2 ^ 32 := by
  obtain ⟨tracks, _, _⟩ := midway
  rcases allocated with ⟨stored, _⟩ | ⟨absent, fresh, next⟩
  · exact ⟨tracks.records _ _ stored, tracks.solutions _ _ stored⟩
  · have few : state.builder.index.leaves.length < 2 ^ 32 := few.resolve_right fun stored => stored absent
    have unknown : recordsOf (history ++ [call]) entry.2 = [] := by
      have notMem : entry.2 ∉ (history ++ [call]).flatMap Call.formulas := by
        rw [← tracks.grown.leafAt_isSome, absent]
        exact Bool.false_ne_true
      refine List.filterMap_eq_nil_iff.mpr fun other member => Call.record?_eq_none.mpr fun inside => ?_
      exact notMem (List.mem_flatMap.mpr ⟨other, member, inside⟩)
    have id : leaf.id = (state.builder.index.nextId + 1) % 2 ^ 32 := by
      rw [fresh]
      exact next
    rw [unknown]
    refine ⟨tracks.unused _ fun formula other stored same => ?_, by rw [fresh]; rfl⟩
    exact tracks.grown.nextId_notMem few (formula, other) (tracks.grown.shaped.mem_leaves.mpr stored)
      (same.trans id)

/-- One more record of a formula, and one more solution of its leaf. -/
theorem Tracks.count {index after : TmpIndex} {formulaDb : MemFormulaDb} {leaf : TmpLeaf}
    (tracks : Tracks (history ++ [call]) index formulaDb) (new : entry.2 ∉ call.formulas)
    (grown : after.Grown ((history ++ [call.add entry]).flatMap Call.formulas))
    (leafAt : ∀ path, after.leafAt path =
      if path = entry.2 then some { leaf with solutions := (leaf.solutions + 1) % 2 ^ 32 } else index.leafAt path)
    (kept : ∀ other, index.leafAt entry.2 = some other → other.id = leaf.id)
    (others : ∀ formula other, formula ≠ entry.2 → index.leafAt formula = some other → other.id ≠ leaf.id)
    (data : formulaDb.mData leaf.id = recordsOf (history ++ [call]) entry.2)
    (counted : leaf.solutions = (recordsOf (history ++ [call]) entry.2).length % 2 ^ 32) :
    Tracks (history ++ [call.add entry]) after
      (formulaDb.insertFormula leaf.id call.crawlId ⟨call.xmlId, entry.1.getXpath⟩).1 := by
  have recordsSelf : recordsOf (history ++ [call.add entry]) entry.2 =
      recordsOf (history ++ [call]) entry.2 ++ [⟨call.crawlId, call.xmlId, entry.1.getXpath⟩] := by
    rw [recordsOf_concat, recordsOf_concat, call.record?_add_self entry new, Call.record?_eq_none.mpr new,
      Option.toList_none, List.append_nil]
    rfl
  have recordsOther : ∀ formula, formula ≠ entry.2 →
      recordsOf (history ++ [call.add entry]) formula = recordsOf (history ++ [call]) formula := by
    intro formula different
    rw [recordsOf_concat, recordsOf_concat, call.record?_add_of_ne entry (Or.inl different)]
  refine ⟨grown, ?_, ?_, ?_⟩
  · intro formula other found
    rw [leafAt] at found
    by_cases here : formula = entry.2
    · rw [if_pos here] at found
      obtain rfl := Option.some.inj found
      rw [here, recordsSelf, ← data]
      exact Function.update_self ..
    · rw [if_neg here] at found
      rw [recordsOther formula here, ← tracks.records formula other found]
      exact Function.update_of_ne (others formula other here found) ..
  · intro formula other found
    rw [leafAt] at found
    by_cases here : formula = entry.2
    · rw [if_pos here] at found
      obtain rfl := Option.some.inj found
      show (leaf.solutions + 1) % 2 ^ 32 = _
      rw [here, recordsSelf, List.length_append, counted, Nat.mod_add_mod]
      rfl
    · rw [if_neg here] at found
      rw [recordsOther formula here, tracks.solutions formula other found]
  · intro id notUsed
    have different : id ≠ leaf.id := fun same =>
      notUsed entry.2 { leaf with solutions := (leaf.solutions + 1) % 2 ^ 32 } (by rw [leafAt, if_pos rfl]) same.symm
    refine (Function.update_of_ne different ..).trans (tracks.unused id fun formula other found => ?_)
    by_cases here : formula = entry.2
    · subst here
      rw [kept other found]
      exact different.symm
    · exact notUsed formula other (by rw [leafAt, if_neg here]; exact found)

/-- The ids met, with the one of a new formula. -/
theorem unique_concat {index after : TmpIndex} {leaf counted : TmpLeaf} {ids : List Nat} (new : entry.2 ∉ call.formulas)
    (leafAt : ∀ path, after.leafAt path = if path = entry.2 then some counted else index.leafAt path)
    (sameId : counted.id = leaf.id)
    (unique : ∀ id, id ∈ ids ↔ ∃ formula ∈ call.formulas, ∃ leaf, index.leafAt formula = some leaf ∧ leaf.id = id)
    (id : Nat) : id ∈ leaf.id :: ids ↔
      ∃ formula ∈ (call.add entry).formulas, ∃ leaf, after.leafAt formula = some leaf ∧ leaf.id = id := by
  rw [List.mem_cons, unique, Call.formulas_add]
  constructor
  · rintro (rfl | ⟨formula, member, other, found, same⟩)
    · exact ⟨entry.2, by simp, counted, by rw [leafAt, if_pos rfl], sameId⟩
    · have different : formula ≠ entry.2 := fun here => new (here ▸ member)
      refine ⟨formula, List.mem_append_left _ member, other, ?_, same⟩
      rw [leafAt, if_neg different]
      exact found
  · rintro ⟨formula, member, other, found, same⟩
    rw [leafAt] at found
    by_cases here : formula = entry.2
    · rw [if_pos here] at found
      obtain rfl := Option.some.inj found
      exact Or.inl (same.symm.trans sameId)
    · rw [if_neg here] at found
      refine Or.inr ⟨formula, ?_, other, found, same⟩
      exact (List.mem_append.mp member).resolve_right fun last => here (List.mem_singleton.mp last)

/-- **A formula that the call meets for the first time.** -/
theorem Midway.first (midway : Midway history call state) (complete : entry.2.IsPrefixCode)
    (new : entry.2 ∉ call.formulas)
    (few : ((history ++ [call.add entry]).flatMap Call.formulas).toFinset.card ≤ 2 ^ 32)
    (putData : C → Str → Option (C × CrawlId)) :
    ∃ state', insertEncoding ⟨MemFormulaDb.insertFormula, putData⟩ call.xmlId call.crawlId state entry.1 entry.2 =
        some state' ∧ Midway history (call.add entry) state' := by
  obtain ⟨index', leaf, inserted, shape, change, allocated⟩ :=
    TmpIndex.insertData_spec midway.tracks.grown.shaped complete
  have grown : index'.Grown ((history ++ [call.add entry]).flatMap Call.formulas) := by
    have grown := TmpIndex.Grown.insertData midway.tracks.grown complete inserted
    rw [List.flatMap_append, List.flatMap_singleton, List.append_assoc] at grown
    rw [List.flatMap_append, List.flatMap_singleton, Call.formulas_add]
    exact grown
  have fewLeaves : index'.leaves.length ≤ 2 ^ 32 := by
    rw [grown.length_leaves]
    exact few
  have roomy : state.builder.index.leaves.length < 2 ^ 32 ∨ state.builder.index.leafAt entry.2 ≠ none := by
    by_cases absent : state.builder.index.leafAt entry.2 = none
    · have after := midway.tracks.grown.shaped.leaves_perm_change shape change
      rw [midway.tracks.grown.shaped.filter_eq_self absent] at after
      rw [after.length_eq, List.length_cons] at fewLeaves
      exact Or.inl fewLeaves
    · exact Or.inr absent
  obtain ⟨data, counted⟩ := midway.before roomy allocated
  obtain ⟨tracks, unique, count⟩ := midway
  have stored : index'.leafAt entry.2 = some leaf := by rw [change, if_pos rfl]
  have kept : ∀ other, state.builder.index.leafAt entry.2 = some other → other.id = leaf.id := by
    intro other found
    rcases allocated with ⟨before, _⟩ | ⟨before, _⟩
    · rw [Option.some.inj (found.symm.trans before)]
    · rw [found] at before
      cases before
  have others : ∀ formula other, formula ≠ entry.2 → state.builder.index.leafAt formula = some other →
      other.id ≠ leaf.id := by
    intro formula other different found same
    refine different (formula_of_id grown fewLeaves ?_ stored same)
    rw [change, if_neg different, found]
  have free : leaf.id ∉ state.uniqueFormulaIds := by
    intro inside
    obtain ⟨formula, member, other, found, same⟩ := (unique _).mp inside
    exact others formula other (fun here => new (here ▸ member)) found same
  obtain ⟨_, counts⟩ := TmpIndex.addSolution_inv grown.shaped stored
  have leafAt : ∀ path, (index'.addSolution entry.2).leafAt path =
      if path = entry.2 then some { leaf with solutions := (leaf.solutions + 1) % 2 ^ 32 }
      else state.builder.index.leafAt path := by
    intro path
    rw [counts]
    by_cases here : path = entry.2
    · rw [if_pos here, if_pos here]
    · rw [if_neg here, if_neg here, change, if_neg here]
  refine ⟨{ state with
    builder := { state.builder with
      index := index'.addSolution entry.2
      formulaDb := (state.builder.formulaDb.insertFormula leaf.id call.crawlId ⟨call.xmlId, entry.1.getXpath⟩).1 }
    uniqueFormulaIds := leaf.id :: state.uniqueFormulaIds
    numSubExpressions := castInt (state.numSubExpressions + 1) }, ?_, ?_, ?_, ?_⟩
  · rw [insertEncoding, inserted]
    exact if_neg free
  · exact tracks.count new (.addSolution grown stored) leafAt kept others data counted
  · exact unique_concat new leafAt rfl unique
  · show castInt (state.numSubExpressions + 1) = _
    have fresh : entry.2 ∉ call.formulas.toFinset := fun member => new (List.mem_toFinset.mp member)
    rw [count, Call.formulas_add, List.toFinset_append, List.toFinset_cons, List.toFinset_nil, insert_empty_eq,
      Finset.union_comm, ← Finset.insert_eq, Finset.card_insert_of_notMem fresh, castInt_add_castInt]
    push_cast
    rfl

/-- One more encoding. -/
theorem Midway.insert (midway : Midway history call state) (complete : entry.2.IsPrefixCode)
    (few : ((history ++ [call.add entry]).flatMap Call.formulas).toFinset.card ≤ 2 ^ 32)
    (putData : C → Str → Option (C × CrawlId)) :
    ∃ state', insertEncoding ⟨MemFormulaDb.insertFormula, putData⟩ call.xmlId call.crawlId state entry.1 entry.2 =
        some state' ∧ Midway history (call.add entry) state' := by
  by_cases member : entry.2 ∈ call.formulas
  · exact midway.again complete member putData
  · exact midway.first complete member few putData

/-- More encodings, one after the other. -/
theorem Midway.insertEncodings (putData : C → Str → Option (C × CrawlId)) (entries : List (Located × EncodedFormula)) :
    ∀ {call : Call} {state : Indexing MemFormulaDb C}, Midway history call state →
      (∀ entry ∈ entries, entry.2.IsPrefixCode) →
      ((history ++ [{ call with encodings := call.encodings ++ entries }]).flatMap Call.formulas).toFinset.card ≤
        2 ^ 32 →
      ∃ state', IndexBuilder.insertEncodings ⟨MemFormulaDb.insertFormula, putData⟩ call.xmlId call.crawlId entries state =
          some state' ∧ Midway history { call with encodings := call.encodings ++ entries } state' := by
  induction entries with
  | nil =>
    intro call state midway _ _
    rw [List.append_nil]
    exact ⟨state, rfl, midway⟩
  | cons entry rest ih =>
    intro call state midway complete few
    have regroup : { call with encodings := call.encodings ++ entry :: rest } =
        { call.add entry with encodings := (call.add entry).encodings ++ rest } := by
      rw [Call.add, List.append_assoc, List.singleton_append]
    have fewHere : ((history ++ [call.add entry]).flatMap Call.formulas).toFinset.card ≤ 2 ^ 32 := by
      refine le_trans (Finset.card_le_card fun formula member => ?_) few
      rw [List.mem_toFinset, List.flatMap_append, List.flatMap_singleton, List.mem_append] at member ⊢
      refine member.imp_right fun inside => ?_
      rw [Call.formulas_add] at inside
      rw [Call.formulas, List.map_append, List.map_cons]
      rcases List.mem_append.mp inside with inside | inside
      · exact List.mem_append_left _ inside
      · obtain rfl := List.mem_singleton.mp inside
        exact List.mem_append_right _ List.mem_cons_self
    obtain ⟨next, inserted, midwayNext⟩ := midway.insert (complete entry List.mem_cons_self) fewHere putData
    rw [regroup] at few ⊢
    obtain ⟨state', insertedRest, midwayRest⟩ :=
      ih midwayNext (fun other member => complete other (List.mem_cons_of_mem _ member)) few
    refine ⟨state', ?_, midwayRest⟩
    rw [insertEncodings_cons, inserted]
    exact insertedRest

end Steps

/-! ### Calls -/

/-- The call of an expression. -/
def callOf (config : EncoderConfig) (dictionary : MeaningDictionary) (input : CmmlToken × Str × CrawlId) : Call :=
  ⟨input.2.1, input.2.2, encodings config dictionary input.1⟩

/-- A call that has inserted nothing yet. -/
theorem Tracks.begin {history : List Call} {index : TmpIndex} {formulaDb : MemFormulaDb}
    (tracks : Tracks history index formulaDb) (xmlId : Str) (crawlId : CrawlId) :
    Tracks (history ++ [⟨xmlId, crawlId, []⟩]) index formulaDb := by
  have records : ∀ formula, recordsOf (history ++ [⟨xmlId, crawlId, []⟩]) formula = recordsOf history formula := by
    intro formula
    rw [recordsOf_concat]
    exact List.append_nil _
  refine ⟨?_, fun formula leaf stored => ?_, fun formula leaf stored => ?_, tracks.unused⟩
  · rw [List.flatMap_append, List.flatMap_singleton]
    exact (List.append_nil (history.flatMap Call.formulas)).symm ▸ tracks.grown
  · rw [records, tracks.records formula leaf stored]
  · rw [records, tracks.solutions formula leaf stored]

/-- **One call of `indexContentMath`**: it goes through, returns the number of different formulas, and everything is
tracked. -/
theorem indexContentMath_tracks {C : Type} {history : List Call} {self : IndexBuilder MemFormulaDb C}
    (tracks : Tracks history self.index self.formulaDb) (input : CmmlToken × Str × CrawlId)
    (complete : ∀ entry ∈ encodings self.indexingOptions self.meaningDictionary input.1, entry.2.IsPrefixCode)
    (few : ((history ++ [callOf self.indexingOptions self.meaningDictionary input]).flatMap
      Call.formulas).toFinset.card ≤ 2 ^ 32) (putData : C → Str → Option (C × CrawlId)) :
    ∃ self' : IndexBuilder MemFormulaDb C,
      self.indexContentMath ⟨MemFormulaDb.insertFormula, putData⟩ input.1 input.2.1 input.2.2 = some (self',
        castInt (callOf self.indexingOptions self.meaningDictionary input).formulas.toFinset.card) ∧
      Tracks (history ++ [callOf self.indexingOptions self.meaningDictionary input]) self'.index self'.formulaDb ∧
      self'.indexingOptions = self.indexingOptions ∧ self'.crawlDb = self.crawlDb ∧
      self'.meaningDictionary = dictionaryAfter self.indexingOptions self.meaningDictionary input.1 := by
  have start : Midway history ⟨input.2.1, input.2.2, []⟩
      (⟨self, .new self.meaningDictionary, [], 0⟩ : Indexing MemFormulaDb C) :=
    ⟨tracks.begin _ _, fun id => by simp [Call.formulas], ((castInt_natCast_iff 0).mpr (by decide)).symm⟩
  obtain ⟨state, inserted, midway⟩ := start.insertEncodings putData _ complete few
  obtain ⟨options, crawlDb⟩ := insertEncodings_kept _ _ inserted
  rw [indexContentMath_eq, inserted]
  refine ⟨{ state.builder with
    meaningDictionary := dictionaryAfter self.indexingOptions self.meaningDictionary input.1 }, ?_, midway.tracks,
    options, crawlDb, rfl⟩
  rw [Option.map_some, midway.count]
  rfl

/-- The expressions one after the other, with the values returned. -/
def indexAll {F C : Type} (databases : Databases F C) : List (CmmlToken × Str × CrawlId) → IndexBuilder F C →
    Option (IndexBuilder F C × List Int)
  | [], self => some (self, [])
  | input :: rest, self => do
    let (self, number) ← self.indexContentMath databases input.1 input.2.1 input.2.2
    let (self, numbers) ← indexAll databases rest self
    return (self, number :: numbers)

/-- The calls of expressions one after the other. -/
def callsOf (config : EncoderConfig) : MeaningDictionary → List (CmmlToken × Str × CrawlId) → List Call
  | _, [] => []
  | dictionary, input :: rest =>
    callOf config dictionary input :: callsOf config (dictionaryAfter config dictionary input.1) rest

/-- **Any number of calls.** -/
theorem indexAll_tracks {C : Type} (putData : C → Str → Option (C × CrawlId))
    (inputs : List (CmmlToken × Str × CrawlId)) : ∀ {history : List Call} {self : IndexBuilder MemFormulaDb C},
      Tracks history self.index self.formulaDb →
      (∀ call ∈ callsOf self.indexingOptions self.meaningDictionary inputs, ∀ formula ∈ call.formulas,
        formula.IsPrefixCode) →
      ((history ++ callsOf self.indexingOptions self.meaningDictionary inputs).flatMap
        Call.formulas).toFinset.card ≤ 2 ^ 32 →
      ∃ self' : IndexBuilder MemFormulaDb C, indexAll ⟨MemFormulaDb.insertFormula, putData⟩ inputs self =
          some (self', (callsOf self.indexingOptions self.meaningDictionary inputs).map fun call =>
            castInt call.formulas.toFinset.card) ∧
        Tracks (history ++ callsOf self.indexingOptions self.meaningDictionary inputs) self'.index self'.formulaDb ∧
        self'.indexingOptions = self.indexingOptions ∧ self'.crawlDb = self.crawlDb := by
  induction inputs with
  | nil =>
    intro history self tracks _ _
    rw [callsOf, List.append_nil]
    exact ⟨self, rfl, tracks, rfl, rfl⟩
  | cons input rest ih =>
    intro history self tracks complete few
    rw [callsOf, ← List.singleton_append, ← List.append_assoc] at few
    have fewHere : ((history ++ [callOf self.indexingOptions self.meaningDictionary input]).flatMap
        Call.formulas).toFinset.card ≤ 2 ^ 32 := by
      refine le_trans (Finset.card_le_card fun formula member => ?_) few
      rw [List.mem_toFinset] at member ⊢
      rw [List.flatMap_append]
      exact List.mem_append_left _ member
    have completeHere : ∀ entry ∈ encodings self.indexingOptions self.meaningDictionary input.1,
        entry.2.IsPrefixCode := fun entry member =>
      complete _ List.mem_cons_self entry.2 (List.mem_map_of_mem member)
    obtain ⟨next, indexed, tracksNext, options, crawlDb, dictionary⟩ :=
      indexContentMath_tracks tracks input completeHere fewHere putData
    obtain ⟨self', indexedRest, tracksRest, optionsRest, crawlDbRest⟩ := ih tracksNext
      (by rw [options, dictionary]; exact fun call member => complete call (List.mem_cons_of_mem _ member))
      (by rw [options, dictionary]; exact few)
    rw [options, dictionary] at indexedRest tracksRest
    refine ⟨self', ?_, ?_, optionsRest.trans options, crawlDbRest.trans crawlDb⟩
    · rw [indexAll, indexed]
      show Option.bind (indexAll _ rest next) _ = _
      rw [indexedRest]
      rfl
    · rw [callsOf, ← List.singleton_append, ← List.append_assoc]
      exact tracksRest

/-! ### The formulas that are inserted -/

/-- No constant of the tree has too many child nodes for `encode`. -/
def Narrow (tree : CmmlToken) : Prop :=
  ∀ node ∈ subtrees tree, node.getType = .constant → node.getArity ≤ encTokMaxArity

/-- **Every subtree that can be encoded is regular**: its variables and ranges have one child node each, and its
constants not too many to be counted. -/
def WellShaped (tree : CmmlToken) : Prop := ∀ inner ∈ subtrees tree, Narrow inner → Regular inner

theorem accepted_iff (located : Located) : accepted located = true ↔
    (located.token.getType = .constant → located.token.getArity ≤ encTokMaxArity) := by
  rw [accepted, CmmlToken.isVar, CmmlToken.isRange]
  cases located.token.getType <;> simp

/-- What is accepted is narrow. -/
theorem narrow_of_encode {D : Doubles} {kind : EncoderKind} {config : EncoderConfig} {encoder : ExpressionEncoder}
    {located : Located} {info : Option (ExpressionInfo D)} (ok : (encode kind encoder config located info).2 = 0) :
    Narrow located.token := by
  have all : ∀ other ∈ dfs [located], accepted other = true := by
    rw [encode, encodeLoop_eq] at ok
    refine List.all_eq_true.mp (Bool.not_eq_false _ ▸ fun some => ?_)
    simp only [some] at ok
    cases ok
  intro node member
  rw [← map_token_preorder_eq_subtrees located.token located.parent located.position] at member
  obtain ⟨other, inside, rfl⟩ := List.mem_map.mp member
  refine (accepted_iff other).mp (all other ?_)
  rw [dfs_eq, List.flatMap_singleton]
  exact inside

/-- Where an encoding comes from. -/
theorem mem_encodingsFrom {config : EncoderConfig} {entry : Located × EncodedFormula} (tokens : List Located) :
    ∀ {encoder : ExpressionEncoder}, entry ∈ encodingsFrom config encoder tokens →
      entry.1 ∈ tokens ∧ ∃ encoder', (encodeSubexpression config encoder' entry.1).2 = (entry.2, 0) := by
  induction tokens with
  | nil => intro encoder member; cases member
  | cons token rest ih =>
    intro encoder member
    rw [encodingsFrom] at member
    split at member
    · rename_i ok
      rcases List.mem_cons.mp member with rfl | member
      · exact ⟨List.mem_cons_self, encoder, Prod.ext rfl ok⟩
      · obtain ⟨inside, source⟩ := ih member
        exact ⟨List.mem_cons_of_mem _ inside, source⟩
    · obtain ⟨inside, source⟩ := ih member
      exact ⟨List.mem_cons_of_mem _ inside, source⟩

/-- **The encodings of an expression that is well shaped are complete prefix codes.** -/
theorem isPrefixCode_of_mem_encodings {config : EncoderConfig} {dictionary : MeaningDictionary} {tree : CmmlToken}
    (shaped : WellShaped tree) {entry : Located × EncodedFormula} (member : entry ∈ encodings config dictionary tree) :
    entry.2.IsPrefixCode := by
  obtain ⟨inside, encoder, source⟩ := mem_encodingsFrom _ member
  have formula : (encode (D := .whole) .harvest encoder config entry.1 none).1.encodedFormula = entry.2 :=
    congrArg Prod.fst source
  have ok : (encode (D := .whole) .harvest encoder config entry.1 none).2 = 0 := congrArg Prod.snd source
  have subtree : entry.1.token ∈ subtrees tree := mem_subtrees_of_dfs inside
  rw [← formula, isPrefixCode_encode_iff _ _ _ _ _ ok]
  exact (regular_iff _).mp (shaped _ subtree (narrow_of_encode ok)) _ (mem_subtrees_self _)

/-- The dictionary behind subexpressions, and the tokens of the encodings. -/
theorem encodingsFrom_stems (config : EncoderConfig) (tokens : List Located) : ∀ {puts : List Str}
    {encoder : ExpressionEncoder}, encoder.meaningDictionary = (IdDictionary.putAll .empty puts).1 →
    ∃ more, (encoderAfter config encoder tokens).meaningDictionary = (IdDictionary.putAll .empty (puts ++ more)).1 ∧
      ∀ entry ∈ encodingsFrom config encoder tokens, ∀ token ∈ entry.2, token.arity = 0 →
        Stems (puts ++ more) token := by
  induction tokens with
  | nil =>
    intro puts encoder dictionary
    exact ⟨[], by rw [List.append_nil]; exact dictionary, fun entry member => by cases member⟩
  | cons token rest ih =>
    intro puts encoder dictionary
    obtain ⟨more, stemming⟩ := encode_stems (D := .whole) dictionary config token none
    obtain ⟨more', later, stems⟩ := ih stemming.dictionary
    rw [List.append_assoc] at later stems
    refine ⟨more ++ more', later, fun entry member other inside flat => ?_⟩
    rw [encodingsFrom] at member
    split at member
    · rcases List.mem_cons.mp member with rfl | member
      · rw [← List.append_assoc]
        exact (stemming.stems other inside flat).append more'
      · exact stems entry member other inside flat
    · exact stems entry member other inside flat

end IndexBuilder

end MathWebSearch
