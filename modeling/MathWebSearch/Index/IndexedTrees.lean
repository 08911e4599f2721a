/-
**What is indexed of trees of constants** (`IndexBuilder::indexContentMath` with `renameCi = false`).

Every subtree that is accepted is inserted under its formula. Over the dictionary at the end of a run all formulas are
words over the same names, so that the run can be told from the trees alone.

* `narrow` — a tree that `encode` accepts.
* `encode_root` — without renaming, it does not matter where a tree stands.
* `encodingsFrom_eq`, `callsOf_eq` — the formulas of an expression, and of expressions one after the other.
* `formulaOf_eq_iff` — two of them are equal if and only if the symbols of the trees are.
-/

import MathWebSearch.Index.CompleteEncodings

namespace MathWebSearch

open CmmlToken IdDictionary PrefixCode

namespace ExpressionEncoder

variable {D : Doubles}

/-- A tree that is accepted: no node has more than 255 child nodes. -/
def narrow (tree : CmmlToken) : Bool := (subtrees tree).all fun inner => inner.getChildNodes.length ≤ 255

theorem narrow_iff {tree : CmmlToken} : narrow tree = true ↔ ∀ inner ∈ subtrees tree, inner.getChildNodes.length ≤ 255 := by
  rw [narrow, List.all_eq_true]
  exact forall₂_congr fun inner _ => decide_eq_true_iff

/-! ### Where a tree stands -/

theorem expressionInfo_encodeNode (kind : EncoderKind) (config : EncoderConfig) {round : Round D}
    (silent : round.expressionInfo = none) (located : Located) :
    (encodeNode kind config round located).expressionInfo = none := by
  unfold encodeNode encodeToken
  simp only []
  split_ifs <;> simp [silent]

/-- Without renaming and without information on variables, only the tokens matter. -/
theorem encodeToken_congr (kind : EncoderKind) {round : Round D} (silent : round.expressionInfo = none)
    {one two : Located} (same : one.token = two.token) :
    encodeToken kind ⟨false⟩ round one = encodeToken kind ⟨false⟩ round two := by
  unfold encodeToken
  simp only [same, silent, Option.map_none, Bool.false_and, Bool.false_eq_true, if_false]

theorem encodeLoop_congr (kind : EncoderKind) (tokens : List Located) : ∀ {tokens' : List Located} {round : Round D},
    round.expressionInfo = none → tokens.map Located.token = tokens'.map Located.token →
      encodeLoop kind ⟨false⟩ tokens round = encodeLoop kind ⟨false⟩ tokens' round := by
  induction tokens with
  | nil =>
    intro tokens' round _ same
    rw [List.map_eq_nil_iff.mp same.symm]
  | cons one rest ih =>
    intro tokens' round silent same
    obtain ⟨two, rest', rfl, here, later⟩ := List.map_eq_cons_iff.mp same.symm
    rw [encodeLoop, encodeLoop, encodeToken_congr kind silent here.symm]
    cases next : encodeToken kind ⟨false⟩ round two with
    | none => rfl
    | some round' =>
      refine ih ?_ later.symm
      have kept := expressionInfo_encodeNode kind ⟨false⟩ silent two
      rw [encodeNode, next] at kept
      exact kept

/-- **A tree is encoded alike wherever it stands.** -/
theorem encode_root (kind : EncoderKind) (self : ExpressionEncoder) (located : Located) :
    encode (D := D) kind self ⟨false⟩ located none = encode kind self ⟨false⟩ (.root located.token) none := by
  refine encodeLoop_congr kind _ rfl ?_
  rw [map_token_dfs_root, dfs_eq, List.flatMap_singleton, map_token_preorder_eq_subtrees]

/-! ### Formulas over the names of a dictionary -/

/-- The formula of a tree of constants. -/
def formulaOf (keys : List Str) (tree : CmmlToken) : EncodedFormula := (symbols tree).map (code keys)

/-- The symbols of a tree can be told from its formula. -/
def KnownTo (keys : List Str) (tree : CmmlToken) : Prop := ∀ symbol ∈ symbols tree, symbol.1 ∈ keys ∧ symbol.2 ≤ encTokMaxArity

theorem KnownTo.subtree {keys : List Str} {tree inner : CmmlToken} (knownTo : KnownTo keys tree) (member : inner ∈ subtrees tree) :
    KnownTo keys inner := by
  intro symbol among
  obtain ⟨node, inside, rfl⟩ := List.mem_map.mp among
  exact knownTo _ (List.mem_map_of_mem (subtrees_trans member inside))

theorem knownTo_iff {keys : List Str} {tree : CmmlToken} : KnownTo keys tree ↔
    (∀ inner ∈ subtrees tree, inner.getMeaning ∈ keys) ∧ narrow tree = true := by
  rw [narrow_iff]
  constructor
  · intro knownTo
    exact ⟨fun inner member => (knownTo _ (List.mem_map_of_mem (f := symbol) member)).1,
      fun inner member => (knownTo _ (List.mem_map_of_mem (f := symbol) member)).2⟩
  · rintro ⟨known, isNarrow⟩ _ among
    obtain ⟨inner, member, rfl⟩ := List.mem_map.mp among
    exact ⟨known inner member, isNarrow inner member⟩

theorem KnownTo.narrow {keys : List Str} {tree : CmmlToken} (knownTo : KnownTo keys tree) : narrow tree = true :=
  (knownTo_iff.mp knownTo).2

/-- **Equal formulas are equal symbols.** -/
theorem formulaOf_eq_iff {keys : List Str} (roomy : Roomy keys) {tree tree' : CmmlToken} (knownTo : KnownTo keys tree)
    (knownTo' : KnownTo keys tree') : formulaOf keys tree = formulaOf keys tree' ↔ symbols tree = symbols tree' :=
  code_eq_iff roomy knownTo knownTo'

/-- The decoder reads the id of a meaning. -/
theorem getMeaning_of_numbered {dictionary : MeaningDictionary} {keys : List Str} (numbered : dictionary.Numbered keys)
    (roomy : Roomy keys) {meaning : Str} (member : meaning ∈ keys) (arity : Nat) :
    (ExpressionDecoder.new dictionary).getMeaning (code keys (meaning, arity)).id = some meaning := by
  rw [roomy.code_id member, ← get_eq_numberOf numbered member, ExpressionDecoder.getMeaning, if_pos (Nat.le_add_right _ _),
    Nat.add_sub_cancel_left]
  exact numbered.reverseLookup_get member

theorem formulaOf_eq (keys : List Str) (tree : CmmlToken) :
    formulaOf keys tree = code keys tree.symbol :: tree.getChildNodes.flatMap (formulaOf keys) := by
  rw [formulaOf, symbols_eq, List.map_cons, List.map_flatMap]
  rfl

/-- The formula of a tree is complete. -/
theorem KnownTo.closes {keys : List Str} {tree : CmmlToken} (knownTo : KnownTo keys tree) :
    Closes EncodedToken.arity 1 (formulaOf keys tree) := closes_code keys (narrow_iff.mp knownTo.narrow)

end ExpressionEncoder

namespace IndexBuilder

open ExpressionEncoder

/-! ### The formulas of an expression -/

theorem Constants.variableFree {tree : CmmlToken} (constants : Constants tree) : tree.VariableFree :=
  fun inner member => (constants inner member).1

theorem Constants.countable {tree : CmmlToken} (constants : Constants tree) : Countable tree :=
  fun inner member => (constants inner member).2

theorem Constants.subtree {tree inner : CmmlToken} (constants : Constants tree) (member : inner ∈ subtrees tree) :
    Constants inner := fun node inside => constants node (subtrees_trans member inside)

/-- One subexpression: what is written if it is accepted. -/
theorem encodeSubexpression_spec {encoder : ExpressionEncoder} {last : MeaningDictionary} {keys : List Str}
    {located : Located} (constants : Constants located.token) (numbered : last.Numbered keys) (roomy : Roomy keys)
    (before : ∃ puts, encoder.meaningDictionary = (putAll empty puts).1)
    (behind : ∃ puts, last = (putAll (encodeSubexpression ⟨false⟩ encoder located).1.meaningDictionary puts).1) :
    ((encodeSubexpression ⟨false⟩ encoder located).2.2 = 0 ↔ narrow located.token = true) ∧
      (narrow located.token = true → KnownTo keys located.token ∧
        (encodeSubexpression ⟨false⟩ encoder located).2.1 = formulaOf keys located.token) := by
  have same := encode_root (D := .whole) .harvest encoder located
  have whole : encodeSubexpression ⟨false⟩ encoder located =
      encodeSubexpression ⟨false⟩ encoder (.root located.token) := by
    rw [encodeSubexpression, encodeSubexpression, same]
  rw [whole] at behind ⊢
  have putting : Putting .whole ⟨false⟩ encoder (.root located.token) last := ⟨before, behind⟩
  have names : last.map.map Prod.fst = keys := by
    rw [numbered.map_eq, List.map_map]
    exact List.zipIdx_map_fst 0 _
  have few : last.map.length < 2 ^ 24 - 161 := by
    rw [← List.length_map (f := Prod.fst), names]
    exact roomy
  obtain ⟨-, -, coded⟩ := putting.codes (constants_of_variableFree constants.variableFree) few
  rw [names] at coded
  have accepts := all_accepted_iff constants.variableFree constants.countable
  rw [← narrow_iff] at accepts
  refine ⟨coded.returns.trans accepts, fun isNarrow => ⟨?_, ?_⟩⟩
  · exact known_symbols encoder coded.known (accepts.mpr isNarrow) (narrow_iff.mp isNarrow)
  · refine coded.formula.trans ?_
    rw [namedSymbols_eq_symbols encoder constants.countable (accepts.mpr isNarrow)]
    rfl

/-- **The formulas of subexpressions**, over the names of a later dictionary. -/
theorem encodingsFrom_eq {last : MeaningDictionary} {keys : List Str} (numbered : last.Numbered keys) (roomy : Roomy keys)
    (tokens : List Located) :
    (∀ located ∈ tokens, Constants located.token) → ∀ {encoder : ExpressionEncoder},
      (∃ puts, encoder.meaningDictionary = (putAll empty puts).1) →
      (∃ puts, last = (putAll (encoderAfter ⟨false⟩ encoder tokens).meaningDictionary puts).1) →
        (∀ located ∈ tokens, narrow located.token = true → KnownTo keys located.token) ∧
          encodingsFrom ⟨false⟩ encoder tokens = (tokens.filter fun located => narrow located.token).map fun located =>
            (located, formulaOf keys located.token) := by
  induction tokens with
  | nil => exact fun _ encoder _ _ => ⟨fun located member => absurd member List.not_mem_nil, rfl⟩
  | cons located rest ih =>
    intro constants encoder before behind
    rw [List.forall_mem_cons] at constants
    obtain ⟨puts, start⟩ := before
    obtain ⟨more, next, -⟩ := encode_knowing (D := .whole) start ⟨false⟩ located none
    have next : (encodeSubexpression ⟨false⟩ encoder located).1.meaningDictionary = (putAll empty (puts ++ more)).1 := next
    obtain ⟨later, after, -⟩ := @encodingsFrom_knowing ⟨false⟩ rest _ _ next
    obtain ⟨puts', finish⟩ := behind
    have here : ∃ puts, last = (putAll (encodeSubexpression ⟨false⟩ encoder located).1.meaningDictionary puts).1 := by
      refine ⟨later ++ puts', ?_⟩
      rw [finish, encoderAfter, List.foldl_cons, ← encoderAfter, after, next]
      simp only [putAll_append]
    obtain ⟨accepts, formula⟩ := encodeSubexpression_spec constants.1 numbered roomy ⟨puts, start⟩ here
    obtain ⟨knownTo, others⟩ := ih constants.2 ⟨_, next⟩ ⟨puts', finish⟩
    refine ⟨List.forall_mem_cons.mpr ⟨fun isNarrow => (formula isNarrow).1, knownTo⟩, ?_⟩
    rw [encodingsFrom]
    by_cases isNarrow : narrow located.token = true
    · have kept : (located :: rest).filter (fun located => narrow located.token) = located :: _ :=
        List.filter_cons_of_pos isNarrow
      rw [if_pos (accepts.mpr isNarrow), kept, List.map_cons, (formula isNarrow).2, others]
    · have dropped : (located :: rest).filter (fun located => narrow located.token) = _ :=
        List.filter_cons_of_neg isNarrow
      rw [if_neg (mt accepts.mp isNarrow), dropped, others]

/-! ### Expressions one after the other -/

/-- The subexpressions of an expression that are accepted. -/
def acceptedNodes (tree : CmmlToken) : List Located := (foreachSubexpression tree).filter fun located => narrow located.token

/-- The call of an expression, over the names of a later dictionary. -/
def callIn (keys : List Str) (input : CmmlToken × Str × CrawlId) : Call :=
  ⟨input.2.1, input.2.2, (acceptedNodes input.1).map fun located => (located, formulaOf keys located.token)⟩

/-- **The calls of expressions**, over the names of a later dictionary. -/
theorem callsOf_eq {last : MeaningDictionary} {keys : List Str} (numbered : last.Numbered keys) (roomy : Roomy keys)
    (inputs : List (CmmlToken × Str × CrawlId)) : (∀ input ∈ inputs, Constants input.1) →
    ∀ {dictionary : MeaningDictionary}, (∃ puts, dictionary = (putAll empty puts).1) →
      (∃ puts, last = (putAll (dictionaryAfterAll ⟨false⟩ dictionary inputs) puts).1) →
        (∀ input ∈ inputs, ∀ located ∈ acceptedNodes input.1, KnownTo keys located.token) ∧
          callsOf ⟨false⟩ dictionary inputs = inputs.map (callIn keys) := by
  induction inputs with
  | nil => exact fun _ dictionary _ _ => ⟨fun input member => absurd member List.not_mem_nil, rfl⟩
  | cons input rest ih =>
    intro constants dictionary before behind
    rw [List.forall_mem_cons] at constants
    obtain ⟨puts, start⟩ := before
    obtain ⟨more, next, -⟩ := @encodingsFrom_knowing ⟨false⟩ (foreachSubexpression input.1) puts (.new dictionary) start
    have next : dictionaryAfter ⟨false⟩ dictionary input.1 = (putAll empty (puts ++ more)).1 := next
    obtain ⟨later, after⟩ := @dictionaryAfterAll_puts ⟨false⟩ rest _ _ next
    obtain ⟨puts', finish⟩ := behind
    have finish : last = (putAll (dictionaryAfterAll ⟨false⟩ (dictionaryAfter ⟨false⟩ dictionary input.1) rest) puts').1 :=
      finish
    have each : ∀ located ∈ foreachSubexpression input.1, Constants located.token := fun located member =>
      constants.1.subtree (mem_subtrees_of_dfs member)
    have encoder : ∃ puts, last = (putAll (encoderAfter ⟨false⟩ (.new dictionary)
        (foreachSubexpression input.1)).meaningDictionary puts).1 := by
      refine ⟨later ++ puts', ?_⟩
      rw [finish, after, show (encoderAfter ⟨false⟩ (.new dictionary) (foreachSubexpression input.1)).meaningDictionary = _
        from next]
      simp only [putAll_append]
    obtain ⟨knownTo, here⟩ := @encodingsFrom_eq last keys numbered roomy _ each (.new dictionary) ⟨puts, start⟩ encoder
    obtain ⟨knownToRest, others⟩ := ih constants.2 ⟨_, next⟩ ⟨puts', finish⟩
    refine ⟨List.forall_mem_cons.mpr ⟨fun located member => ?_, knownToRest⟩, ?_⟩
    · obtain ⟨visited, isNarrow⟩ := List.mem_filter.mp member
      exact knownTo located visited isNarrow
    · rw [callsOf, List.map_cons, others, callOf, encodings, here]
      rfl

/-- A run from an empty dictionary. -/
theorem callsOf_empty {inputs : List (CmmlToken × Str × CrawlId)} (constants : ∀ input ∈ inputs, Constants input.1)
    (few : (dictionaryAfterAll ⟨false⟩ .empty inputs).map.length < 2 ^ 24 - 161) :
    ∃ keys, (dictionaryAfterAll ⟨false⟩ .empty inputs).Numbered keys ∧ Roomy keys ∧
      (∀ input ∈ inputs, ∀ located ∈ acceptedNodes input.1, KnownTo keys located.token) ∧
      callsOf ⟨false⟩ .empty inputs = inputs.map (callIn keys) := by
  obtain ⟨puts, made⟩ := @dictionaryAfterAll_puts ⟨false⟩ inputs .empty [] rfl
  rw [made] at few
  obtain ⟨numbered, length⟩ := numbered_of_length (lt_trans few (by decide))
  rw [← length] at few
  rw [← made] at numbered
  exact ⟨_, numbered, few, callsOf_eq numbered few inputs constants ⟨[], rfl⟩ ⟨[], rfl⟩⟩

/-- Some node of a tree has no child nodes. -/
theorem exists_childless (tree : CmmlToken) : ∃ inner ∈ subtrees tree, inner.getChildNodes = [] := by
  induction tree with
  | mk tag attributes text children ih =>
    cases children with
    | nil => exact ⟨_, mem_subtrees_self _, rfl⟩
    | cons child rest =>
      obtain ⟨inner, member, childless⟩ := ih child List.mem_cons_self
      exact ⟨inner, mem_subtrees_of_child List.mem_cons_self member, childless⟩

/-- Of every expression something is accepted. -/
theorem acceptedNodes_ne_nil (tree : CmmlToken) : acceptedNodes tree ≠ [] := by
  obtain ⟨inner, member, childless⟩ := exists_childless tree
  rw [← map_token_dfs_root] at member
  obtain ⟨located, visited, rfl⟩ := List.mem_map.mp member
  refine List.ne_nil_of_mem (List.mem_filter.mpr ⟨visited, narrow_iff.mpr fun node inside => ?_⟩)
  rw [subtrees_eq, childless, List.flatMap_nil, List.mem_singleton] at inside
  rw [inside, childless]
  exact Nat.zero_le _

end IndexBuilder

end MathWebSearch
