/-
**Every formula in the index is a complete prefix code** (`ExpressionEncoder::encode`, `IndexBuilder::indexContentMath`).

The encoder gives variables and ranges the arity 1 and then encodes their child nodes, however many there are.

* `Knowing` — while the dictionary has fewer than `2 ^ 24 - 161` entries, a harvest encoder finds an id for every constant.
* `encodings_complete_iff` — the encodings of an expression are complete exactly when it is well shaped.
* `indexAll_grown` — expressions that are well shaped are indexed, one after the other.
* `indexAll_complete` — over a whole run: when all formulas are complete, and what follows for the index, its iterator
  and its export.
* `indexAll_childless` — a variable without a child node, and an element around it.

Nodes of the index have fewer than `2 ^ 31` children, as a `VectorMap` can have.
-/

import MathWebSearch.Index.HarvestLoading
import MathWebSearch.Index.HitCounters
import MathWebSearch.Index.Layout

namespace MathWebSearch

open CmmlToken IdDictionary PrefixCode TmpIndexNode ExpressionEncoder

namespace ExpressionEncoder

variable {D : Doubles}

/-! ### Constants that are known -/

/-- **A harvest encoder at work**: the dictionary is made by `put` calls, and with few entries no constant has been left
without an id. -/
structure Knowing (puts : List Str) (round : Round D) : Prop where
  dictionary : round.encoder.meaningDictionary = (putAll empty puts).1
  known : puts.toFinset.card < 2 ^ 24 - 161 → round.rv = 0

theorem card_le_append (puts more : List Str) : puts.toFinset.card ≤ (puts ++ more).toFinset.card := by
  rw [List.toFinset_append]
  exact Finset.card_le_card Finset.subset_union_left

/-- The id that `put` gives to a name. -/
theorem put_ne_keyNotFound {puts : List Str} {name : Str} (few : (puts ++ [name]).toFinset.card < 2 ^ 24 - 161) :
    (constantIdMin + ((putAll empty puts).1.put name).2) % 2 ^ 24 ≠ keyNotFound := by
  rw [← length_concatAll, concatAll_append] at few
  have less : (concatAll [] puts).length < 2 ^ 32 - 1 :=
    lt_of_le_of_lt (length_le_concatAll [name] (concatAll [] puts)) (lt_trans few (by decide))
  obtain ⟨-, id⟩ := @put_spec Str _ (putAll empty puts).1 (concatAll [] puts)
    (putAll_spec puts numbered_empty less).1 name (lt_trans few (by decide))
  have place := numberOf_le (mem_concatNew.mpr (Or.inr rfl) : name ∈ concatNew (concatAll [] puts) name)
  have few : (concatNew (concatAll [] puts) name).length < 2 ^ 24 - 161 := few
  rw [id, ← numberOf, constantIdMin, keyNotFound, valueIdStart]
  rw [numberOf] at place ⊢
  omega

/-- One round. -/
theorem Knowing.encodeNode {puts : List Str} {round : Round D} (knowing : Knowing puts round) (config : EncoderConfig)
    {located : Located} (goesOn : accepted located = true) :
    ∃ more, Knowing (puts ++ more) (encodeNode .harvest config round located) := by
  cases type : located.token.getType with
  | var =>
    have isVar : located.token.isVar = true := by rw [CmmlToken.isVar, type]; rfl
    refine ⟨[], ?_⟩
    rw [List.append_nil]
    unfold ExpressionEncoder.encodeNode encodeToken
    simp only [isVar, if_true]
    split
    · exact ⟨knowing.dictionary, knowing.known⟩
    · exact ⟨knowing.dictionary, knowing.known⟩
  | range =>
    have noVar : located.token.isVar = false := by rw [CmmlToken.isVar, type]; rfl
    have isRange : located.token.isRange = true := by rw [CmmlToken.isRange, type]; rfl
    refine ⟨[], ?_⟩
    rw [List.append_nil]
    unfold ExpressionEncoder.encodeNode encodeToken
    simp only [noVar, Bool.false_eq_true, if_false, isRange, if_true]
    exact ⟨knowing.dictionary, knowing.known⟩
  | constant =>
    have narrow : located.token.getArity ≤ encTokMaxArity := by
      rw [accepted, CmmlToken.isVar, CmmlToken.isRange, type] at goesOn
      exact of_decide_eq_true goesOn
    rw [encodeNode_plain .harvest config round ⟨type, narrow⟩]
    have same := meaningDictionary_constantName config round.encoder located
    generalize constantName config round.encoder located = named at same
    refine ⟨[named.2], ?_, fun few => ?_⟩
    · show (named.1.meaningDictionary.put named.2).1 = _
      rw [same, knowing.dictionary, putAll_append]
      rfl
    · have found := put_ne_keyNotFound few
      rw [← knowing.dictionary, ← same] at found
      show (if (constantIdMin + (named.1.meaningDictionary.put named.2).2) % 2 ^ 24 = keyNotFound then -1
        else round.rv) = 0
      rw [if_neg found]
      exact knowing.known (lt_of_le_of_lt (card_le_append puts _) few)

theorem Knowing.foldl (config : EncoderConfig) (tokens : List Located) : ∀ {puts : List Str} {round : Round D},
    Knowing puts round → (∀ located ∈ tokens, accepted located = true) →
    ∃ more, Knowing (puts ++ more) (tokens.foldl (ExpressionEncoder.encodeNode .harvest config) round) := by
  induction tokens with
  | nil =>
    intro puts round knowing _
    exact ⟨[], by rw [List.append_nil]; exact knowing⟩
  | cons located rest ih =>
    intro puts round knowing all
    obtain ⟨more, next⟩ := knowing.encodeNode config (all located List.mem_cons_self)
    obtain ⟨more', last⟩ := ih next fun other member => all other (List.mem_cons_of_mem _ member)
    exact ⟨more ++ more', by rw [← List.append_assoc]; exact last⟩

/-- **A harvest encoder** adds to the dictionary, and returns 0 for trees that are narrow while the dictionary has few
entries. -/
theorem encode_knowing {puts : List Str} {self : ExpressionEncoder}
    (dictionary : self.meaningDictionary = (putAll empty puts).1) (config : EncoderConfig) (expression : Located)
    (info : Option (ExpressionInfo D)) :
    ∃ more, (encode .harvest self config expression info).1.encoder.meaningDictionary = (putAll empty (puts ++ more)).1 ∧
      ((puts ++ more).toFinset.card < 2 ^ 24 - 161 → (∀ located ∈ dfs [expression], accepted located = true) →
        (encode .harvest self config expression info).2 = 0) := by
  have start : Knowing puts (self.startRound info) := ⟨dictionary, fun _ => rfl⟩
  obtain ⟨more, after⟩ := start.foldl config ((dfs [expression]).takeWhile accepted) fun located member =>
    List.mem_takeWhile_imp member
  rw [encode, encodeLoop_eq]
  refine ⟨more, after.dictionary, fun few all => ?_⟩
  rw [if_pos (List.all_eq_true.mpr all)]
  exact after.known few

end ExpressionEncoder

namespace IndexBuilder

/-! ### One expression -/

/-- Where a narrow tree stands, all nodes are accepted. -/
theorem accepted_of_narrow {located : Located} (narrow : Narrow located.token) : ∀ other ∈ dfs [located], accepted other = true := by
  intro other inside
  refine (accepted_iff other).mpr fun constant => narrow other.token ?_ constant
  rw [← map_token_preorder_eq_subtrees located.token located.parent located.position]
  refine List.mem_map_of_mem ?_
  rw [dfs_eq, List.flatMap_singleton] at inside
  exact inside

/-- The subexpressions that are narrow are encoded, while the dictionary has few entries. -/
theorem encodingsFrom_knowing (config : EncoderConfig) (tokens : List Located) : ∀ {puts : List Str}
    {encoder : ExpressionEncoder}, encoder.meaningDictionary = (putAll empty puts).1 →
    ∃ more, (encoderAfter config encoder tokens).meaningDictionary = (putAll empty (puts ++ more)).1 ∧
      ((puts ++ more).toFinset.card < 2 ^ 24 - 161 → ∀ located ∈ tokens,
        (∀ other ∈ dfs [located], accepted other = true) → ∃ entry ∈ encodingsFrom config encoder tokens,
          entry.1 = located) := by
  induction tokens with
  | nil =>
    intro puts encoder dictionary
    exact ⟨[], by rw [List.append_nil]; exact dictionary, fun _ located member => by cases member⟩
  | cons token rest ih =>
    intro puts encoder dictionary
    obtain ⟨more, dictionary', ok⟩ := encode_knowing (D := .whole) dictionary config token none
    obtain ⟨more', later, found⟩ := ih dictionary'
    rw [List.append_assoc] at later found
    refine ⟨more ++ more', later, fun few located member all => ?_⟩
    rw [encodingsFrom]
    rcases List.mem_cons.mp member with rfl | member
    · have ok : (encodeSubexpression config encoder located).2.2 = 0 := by
        refine ok (lt_of_le_of_lt ?_ few) all
        rw [← List.append_assoc]
        exact card_le_append _ _
      rw [if_pos ok]
      exact ⟨_, List.mem_cons_self, rfl⟩
    · obtain ⟨entry, among, same⟩ := found few located member all
      refine ⟨entry, ?_, same⟩
      split
      · exact List.mem_cons_of_mem _ among
      · exact among

/-- **The encodings of an expression are complete exactly when it is well shaped**, while the dictionary has few
entries. -/
theorem encodings_complete_iff {config : EncoderConfig} {dictionary : MeaningDictionary} {puts : List Str}
    (made : dictionary = (putAll empty puts).1) {tree : CmmlToken}
    (few : (dictionaryAfter config dictionary tree).map.length < 2 ^ 24 - 161) :
    (∀ entry ∈ encodings config dictionary tree, entry.2.IsPrefixCode) ↔ WellShaped tree := by
  constructor
  · intro complete inner member narrow
    obtain ⟨more, after, found⟩ :=
      @encodingsFrom_knowing config (foreachSubexpression tree) puts (.new dictionary) made
    have counted : (puts ++ more).toFinset.card < 2 ^ 24 - 161 := by
      rw [dictionaryAfter, after] at few
      obtain ⟨-, length⟩ := numbered_of_length (lt_trans few (by decide))
      rw [← length_concatAll, length]
      exact few
    refine (regular_iff inner).mpr fun node inside => ?_
    have below : node ∈ subtrees tree := subtrees_trans member inside
    rw [← map_token_dfs_root] at below
    obtain ⟨located, visited, rfl⟩ := List.mem_map.mp below
    have narrow : Narrow located.token := fun other among => narrow other (subtrees_trans inside among)
    obtain ⟨entry, listed, rfl⟩ := found counted located visited (accepted_of_narrow narrow)
    obtain ⟨-, encoder, source⟩ := mem_encodingsFrom _ listed
    have formula : (encode (D := .whole) .harvest encoder config entry.1 none).1.encodedFormula = entry.2 :=
      congrArg Prod.fst source
    have ok : (encode (D := .whole) .harvest encoder config entry.1 none).2 = 0 := congrArg Prod.snd source
    rw [← isPrefixCode_encode_iff _ _ _ _ _ ok, formula]
    exact complete entry listed
  · intro shaped entry member
    exact isPrefixCode_of_mem_encodings shaped member

/-! ### Runs -/

/-- The dictionary behind expressions. -/
def dictionaryAfterAll (config : EncoderConfig) (dictionary : MeaningDictionary)
    (inputs : List (CmmlToken × Str × CrawlId)) : MeaningDictionary :=
  inputs.foldl (fun dictionary input => dictionaryAfter config dictionary input.1) dictionary

/-- The dictionary behind expressions is made by `put` calls, too. -/
theorem dictionaryAfterAll_puts (config : EncoderConfig) (inputs : List (CmmlToken × Str × CrawlId)) :
    ∀ {dictionary : MeaningDictionary} {puts : List Str}, dictionary = (putAll empty puts).1 →
      ∃ more, dictionaryAfterAll config dictionary inputs = (putAll empty (puts ++ more)).1 := by
  induction inputs with
  | nil =>
    intro dictionary puts made
    exact ⟨[], by rw [List.append_nil]; exact made⟩
  | cons input rest ih =>
    intro dictionary puts made
    obtain ⟨more, after, -⟩ :=
      @encodingsFrom_knowing config (foreachSubexpression input.1) puts (.new dictionary) made
    obtain ⟨more', later⟩ := @ih (dictionaryAfter config dictionary input.1) _ after
    exact ⟨more ++ more', by rw [← List.append_assoc]; exact later⟩

/-- A dictionary that is small after expressions was small before. -/
theorem few_of_dictionaryAfterAll {config : EncoderConfig} {dictionary : MeaningDictionary} {puts : List Str}
    (made : dictionary = (putAll empty puts).1) {inputs : List (CmmlToken × Str × CrawlId)}
    (few : (dictionaryAfterAll config dictionary inputs).map.length < 2 ^ 24 - 161) :
    dictionary.map.length < 2 ^ 24 - 161 := by
  obtain ⟨later, made'⟩ := dictionaryAfterAll_puts config inputs made
  rw [made'] at few
  obtain ⟨-, length⟩ := numbered_of_length (lt_trans few (by decide))
  rw [← length, length_concatAll] at few
  have less := lt_of_le_of_lt (card_le_append puts later) few
  obtain ⟨keys, -, length', numbered, -⟩ := putAll_empty (lt_trans less (by decide))
  rw [made, numbered.map_eq, List.length_map, List.length_zipIdx, length']
  exact less

/-- **All formulas of a run are complete exactly when all expressions are well shaped.** -/
theorem callsOf_complete_iff {config : EncoderConfig} (inputs : List (CmmlToken × Str × CrawlId)) :
    ∀ {dictionary : MeaningDictionary} {puts : List Str}, dictionary = (putAll empty puts).1 →
      (dictionaryAfterAll config dictionary inputs).map.length < 2 ^ 24 - 161 →
      ((∀ call ∈ callsOf config dictionary inputs, ∀ formula ∈ call.formulas, formula.IsPrefixCode) ↔
        ∀ input ∈ inputs, WellShaped input.1) := by
  induction inputs with
  | nil => intro dictionary puts _ _; simp [callsOf]
  | cons input rest ih =>
    intro dictionary puts made few
    obtain ⟨more, after, -⟩ :=
      @encodingsFrom_knowing config (foreachSubexpression input.1) puts (.new dictionary) made
    have after : dictionaryAfter config dictionary input.1 = (putAll empty (puts ++ more)).1 := after
    have fewRest : (dictionaryAfterAll config (dictionaryAfter config dictionary input.1) rest).map.length <
        2 ^ 24 - 161 := few
    have fewHere : (dictionaryAfter config dictionary input.1).map.length < 2 ^ 24 - 161 :=
      few_of_dictionaryAfterAll after fewRest
    have here := encodings_complete_iff made fewHere
    rw [callsOf, List.forall_mem_cons, List.forall_mem_cons, ih after fewRest, ← here]
    refine and_congr_left fun _ => ?_
    constructor
    · intro complete entry member
      exact complete entry.2 (List.mem_map_of_mem member)
    · intro complete formula member
      obtain ⟨entry, among, rfl⟩ := List.mem_map.mp member
      exact complete entry among

/-- **Expressions that are well shaped are indexed**, one after the other, with any databases. -/
theorem indexAll_grown {F C : Type} (databases : Databases F C) (inputs : List (CmmlToken × Str × CrawlId)) :
    ∀ {formulas : List EncodedFormula} {self : IndexBuilder F C}, self.index.Grown formulas →
      (∀ input ∈ inputs, WellShaped input.1) →
      ∃ self' numbers, indexAll databases inputs self = some (self', numbers) ∧
        self'.index.Grown (formulas ++
          (callsOf self.indexingOptions self.meaningDictionary inputs).flatMap Call.formulas) := by
  induction inputs with
  | nil =>
    intro formulas self grown _
    refine ⟨self, [], rfl, ?_⟩
    rw [callsOf, List.flatMap_nil, List.append_nil]
    exact grown
  | cons input rest ih =>
    intro formulas self grown shaped
    obtain ⟨state, inserted, grown'⟩ := @insertEncodings_grown F C databases input.2.1 input.2.2
      (encodings self.indexingOptions self.meaningDictionary input.1) formulas
      ⟨self, .new self.meaningDictionary, [], 0⟩ grown fun entry member =>
        isPrefixCode_of_mem_encodings (shaped input List.mem_cons_self) member
    obtain ⟨options, -⟩ := insertEncodings_kept _ _ inserted
    have options : state.builder.indexingOptions = self.indexingOptions := options
    obtain ⟨self', numbers, later, grownLater⟩ := @ih _ { state.builder with
      meaningDictionary := dictionaryAfter self.indexingOptions self.meaningDictionary input.1 } grown'
        fun other member => shaped other (List.mem_cons_of_mem _ member)
    refine ⟨self', state.numSubExpressions :: numbers, ?_, ?_⟩
    · rw [indexAll, indexContentMath_eq, inserted]
      show Option.bind (indexAll databases rest _) _ = _
      rw [later]
      rfl
    · rw [callsOf, List.flatMap_cons, ← List.append_assoc, ← options]
      rw [← options] at grownLater
      exact grownLater

/-- **Every formula in the index is a complete prefix code**, for expressions that are well shaped and no others. A
harvest encoder that accepts a tree encodes it as one if the tree is well shaped. Over a run of `indexContentMath` on a new
index, all formulas that are inserted are complete if and only if all expressions are well shaped (while the dictionary
has few entries; one direction holds always). Then no formula is a proper part of another, every call goes through, the
nodes without children are the leaves, and the iterator and the export reach the leaves and ask none of them for its
children. -/
theorem indexAll_complete {F C : Type} (databases : Databases F C) (formulaDb : F) (crawlDb : Option C)
    (options : EncoderConfig) (nextId : Nat) (inputs : List (CmmlToken × Str × CrawlId)) :
    (∀ (encoder : ExpressionEncoder) (located : Located), WellShaped located.token →
      (encodeSubexpression options encoder located).2.2 = 0 →
        (encodeSubexpression options encoder located).2.1.IsPrefixCode) ∧
    ((dictionaryAfterAll options .empty inputs).map.length < 2 ^ 24 - 161 →
      ((∀ call ∈ callsOf options .empty inputs, ∀ formula ∈ call.formulas, formula.IsPrefixCode) ↔
        ∀ input ∈ inputs, WellShaped input.1)) ∧
    ((∀ input ∈ inputs, WellShaped input.1) →
      (∀ call ∈ callsOf options .empty inputs, ∀ formula ∈ call.formulas, formula.IsPrefixCode) ∧
      (∀ first ∈ (callsOf options .empty inputs).flatMap Call.formulas,
        ∀ second ∈ (callsOf options .empty inputs).flatMap Call.formulas, first <+: second → first = second) ∧
      ∃ self' numbers, indexAll databases inputs ⟨formulaDb, crawlDb, .empty nextId, .empty, options⟩ =
          some (self', numbers) ∧
        (∀ path node, Reaches self'.index.root path node → (node.IsLeafNode ↔ node.children = [] ∧ path ≠ [])) ∧
        (¬ self'.index.IsEmpty → ∀ longOffStart ≤ 2 ^ 32, ∃ enough, ∀ fuel, enough ≤ fuel →
          (∃ found events last, IndexIterator.enumerate strictAccessor self'.index fuel fuel
            (.start self'.index.root) = some (found, events, last) ∧ ∀ entry ∈ found, entry.2.IsLeafNode) ∧
          (self'.index.exportToMemsector longOffStart fuel Memsector.create).isSome)) := by
  refine ⟨fun encoder located shaped ok => ?_, fun few => @callsOf_complete_iff options inputs .empty [] rfl few,
    fun shaped => ?_⟩
  · have ok : (encode (D := .whole) .harvest encoder options located none).2 = 0 := ok
    refine (isPrefixCode_encode_iff (D := .whole) .harvest encoder options located none ok).mpr ?_
    exact (regular_iff _).mp (shaped _ (mem_subtrees_self _) (narrow_of_encode ok)) _ (mem_subtrees_self _)
  · have complete := @isPrefixCode_of_mem_callsOf options inputs .empty shaped
    have codes : ∀ formula ∈ (callsOf options .empty inputs).flatMap Call.formulas, formula.IsPrefixCode := by
      intro formula member
      obtain ⟨call, among, inside⟩ := List.mem_flatMap.mp member
      exact complete call among formula inside
    obtain ⟨self', numbers, indexed, grown⟩ := @indexAll_grown F C databases inputs []
      ⟨formulaDb, crawlDb, .empty nextId, .empty, options⟩ (.empty nextId) shaped
    refine ⟨complete, fun first member second member' front => ?_, self', numbers, indexed, ?_, ?_⟩
    · exact (EncodedFormula.isPrefixCode_iff.mp (codes first member)).eq_of_front
        (EncodedFormula.isPrefixCode_iff.mp (codes second member')) front
    · exact fun path node reaches => grown.shaped.isLeafNode_iff reaches
    · intro nonempty longOffStart threshold
      have shape : WellFormed 1 self'.index.root := by
        rcases grown.shaped with new | shape
        · exact absurd (by rw [TmpIndex.IsEmpty, new]; rfl) nonempty
        · exact shape
      obtain ⟨enough, found, leaves, run⟩ := TmpIndex.enumerate_leaves shape
      obtain ⟨enough', mswr, file, exported, -⟩ := @TmpIndex.exported_spec (fun _ => True) longOffStart threshold
        self'.index shape fun _ _ => trivial
      refine ⟨max enough enough', fun fuel more => ⟨⟨found, _, _, run fuel (by omega), fun entry member => ?_⟩, ?_⟩⟩
      · obtain ⟨leaf, same⟩ := leaves entry member
        rw [same]
        rfl
      · rw [exported fuel (by omega)]
        rfl

/-! ### Variables with and without a child node -/

/-- `<r><cn>3</cn><cn>3</cn></r>`, and a variable with one child node in an `<r>`. -/
def variedInputs : List (CmmlToken × Str × CrawlId) :=
  [(wideTree three 2, ['u'], 0), (wideTree (.mk qvarTag [] .empty [three]) 1, ['v'], 0)]

/-- Both trees are indexed: their formulas are complete, and the iterator and the export go through. -/
theorem indexAll_complete_variedInputs :
    (callsOf ⟨false⟩ .empty variedInputs).map Call.formulas =
      [[encodedToken 162 2 :: threeCode ++ threeCode, threeCode, threeCode],
        [encodedToken 162 1 :: encodedToken 33 1 :: threeCode, encodedToken 33 1 :: threeCode, threeCode]] ∧
    (∀ call ∈ callsOf ⟨false⟩ .empty variedInputs, ∀ formula ∈ call.formulas, formula.IsPrefixCode) ∧
    ∃ self' numbers, indexAll memDatabases variedInputs (fresh (some .empty) .empty ⟨false⟩ 0) = some (self', numbers) ∧
      ∃ enough, ∀ fuel, enough ≤ fuel →
        (∃ found events last, IndexIterator.enumerate strictAccessor self'.index fuel fuel
          (.start self'.index.root) = some (found, events, last) ∧ ∀ entry ∈ found, entry.2.IsLeafNode) ∧
        (self'.index.exportToMemsector (2 ^ 32) fuel Memsector.create).isSome := by
  have shaped : ∀ input ∈ variedInputs, WellShaped input.1 := by
    unfold WellShaped Narrow Regular
    decide
  obtain ⟨complete, -, self', numbers, indexed, -, served⟩ :=
    (indexAll_complete memDatabases .empty (some .empty) ⟨false⟩ 0 variedInputs).2.2 shaped
  have filled : (indexAll memDatabases variedInputs (fresh (some .empty) .empty ⟨false⟩ 0)).map
      (fun result => result.1.index.root.children.isEmpty) = some false := by with_unfolding_all rfl
  refine ⟨by with_unfolding_all rfl, complete, self', numbers, indexed, served (fun empty => ?_) (2 ^ 32) le_rfl⟩
  have indexed : indexAll memDatabases variedInputs (fresh (some .empty) .empty ⟨false⟩ 0) = some (self', numbers) :=
    indexed
  have none : self'.index.root.children = [] := empty
  rw [indexed, Option.map_some, none] at filled
  exact absurd filled (by decide)

/-- An element around a variable without a child node. -/
def childlessTree : CmmlToken := .mk ['r'] [] .empty [.mk qvarTag [] .empty []]

/-- The index of `childlessTree`. -/
def childlessIndex : TmpIndex :=
  ⟨.mk none [(encodedToken 33 1, leafNode ⟨2, 1⟩), (encodedToken 162 1, .mk none [(encodedToken 33 1, leafNode ⟨1, 1⟩)])], 2⟩

/-- The element and the variable are both encoded, and neither encoding is complete. In the index, the iterator asks the
leaf of the variable for its children and reads a token behind their end. -/
theorem indexAll_childless :
    (encodings ⟨false⟩ .empty childlessTree).map Prod.snd =
      [[encodedToken 162 1, encodedToken 33 1], [encodedToken 33 1]] ∧
    ¬ (∀ entry ∈ encodings ⟨false⟩ .empty childlessTree, entry.2.IsPrefixCode) ∧
    ∃ self' numbers, indexAll memDatabases [(childlessTree, [], 0)] (fresh (some .empty) .empty ⟨false⟩ 0) =
        some (self', numbers) ∧
      ∀ fuel, (IndexIterator.start self'.index.root).next tmpIndexAccessor self'.index fuel = none := by
  have formulas : (encodings ⟨false⟩ .empty childlessTree).map Prod.snd =
      [[encodedToken 162 1, encodedToken 33 1], [encodedToken 33 1]] := by with_unfolding_all rfl
  have indexed : (indexAll memDatabases [(childlessTree, [], 0)] (fresh (some .empty) .empty ⟨false⟩ 0)).map
      (fun result => result.1.index) = some childlessIndex := by with_unfolding_all rfl
  refine ⟨formulas, fun complete => ?_, ?_⟩
  · have inside : [encodedToken 33 1] ∈ (encodings ⟨false⟩ .empty childlessTree).map Prod.snd := by
      rw [formulas]
      exact List.mem_cons_of_mem _ List.mem_cons_self
    obtain ⟨entry, member, same⟩ := List.mem_map.mp inside
    have broken := complete entry member
    rw [same] at broken
    exact absurd broken (by decide)
  · obtain ⟨⟨self', numbers⟩, run, same⟩ := Option.map_eq_some_iff.mp indexed
    refine ⟨self', numbers, run, fun fuel => ?_⟩
    have same : self'.index = childlessIndex := same
    rw [same]
    cases fuel with
    | zero => rfl
    | succ fuel => rfl

end IndexBuilder

end MathWebSearch
