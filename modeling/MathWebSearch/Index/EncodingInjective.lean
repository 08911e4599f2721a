/-
**Constant trees and their encodings** (`ExpressionEncoder::encode` with `renameCi = false`).

Every formula of the index is known by its encoding only. For trees without variables and ranges:

* `encode` returns 0 exactly when no node has more than 255 children, as long as the number of children fits the
  `uint32_t` that `getArity` returns (`encode_wideTree` is what happens beyond);
* two encodings are equal exactly when the trees are, and none is a proper part of another;
* a query encoder over the same dictionary writes the same formula.
-/

import MathWebSearch.Index.EncoderSpec

namespace MathWebSearch

open CmmlToken IdDictionary PrefixCode

namespace ExpressionEncoder

variable {D : Doubles}

/-- The tokens of a tree as the traversal visits them. -/
theorem map_token_dfs_root (tree : CmmlToken) : (dfs [.root tree]).map Located.token = subtrees tree := by
  rw [show dfs [.root tree] = foreachSubexpression tree from rfl, foreachSubexpression_eq]
  rfl

theorem mem_subtrees_of_dfs {tree : CmmlToken} {located : Located} (member : located ∈ dfs [.root tree]) :
    located.token ∈ subtrees tree := by
  rw [← map_token_dfs_root]
  exact List.mem_map_of_mem member

/-- A property of the tokens that are visited is one of the subtrees. -/
theorem forall_dfs_root {tree : CmmlToken} {P : CmmlToken → Prop} :
    (∀ located ∈ dfs [.root tree], P located.token) ↔ ∀ inner ∈ subtrees tree, P inner := by
  rw [← map_token_dfs_root, List.forall_mem_map]

theorem constants_of_variableFree {tree : CmmlToken} (free : tree.VariableFree) :
    ∀ located ∈ dfs [.root tree], located.token.getType = .constant := forall_dfs_root.mpr free

/-- Without renaming, a constant is encoded under its meaning. -/
theorem namesOf_meanings (self : ExpressionEncoder) (tokens : List Located) :
    namesOf ⟨false⟩ self tokens = tokens.map fun located => located.token.getMeaning := by
  induction tokens with
  | nil => rfl
  | cons located rest ih =>
    rw [namesOf, List.map_cons]
    exact congrArg _ ih

/-- The number of children as the encoder sees it. -/
def Countable (tree : CmmlToken) : Prop := ∀ inner ∈ subtrees tree, inner.getChildNodes.length < 2 ^ 32

/-- Constants are accepted unless they have too many children. -/
theorem all_accepted_iff {tree : CmmlToken} (free : tree.VariableFree) (countable : Countable tree) :
    (dfs [.root tree]).all accepted = true ↔ ∀ inner ∈ subtrees tree, inner.getChildNodes.length ≤ 255 := by
  have each : ∀ located ∈ dfs [.root tree],
      (accepted located = true ↔ located.token.getChildNodes.length ≤ 255) := by
    intro located member
    have inside := mem_subtrees_of_dfs member
    have constant := free _ inside
    have fits := countable _ inside
    rw [accepted, isVar, CmmlToken.isRange, constant, getArity, Nat.mod_eq_of_lt fits]
    exact decide_eq_true_iff
  rw [List.all_eq_true]
  refine Iff.trans ?_ forall_dfs_root
  exact forall₂_congr each

/-- The names and arities of a tree that is accepted are its symbols. -/
theorem namedSymbols_eq_symbols (self : ExpressionEncoder) {tree : CmmlToken} (countable : Countable tree)
    (all : (dfs [.root tree]).all accepted = true) :
    namedSymbols ⟨false⟩ self ((dfs [.root tree]).takeWhile accepted) = symbols tree := by
  have whole : (dfs [.root tree]).takeWhile accepted = dfs [.root tree] :=
    List.takeWhile_eq_self_iff.mpr (List.all_eq_true.mp all)
  rw [whole, namedSymbols, namesOf_meanings, List.zip_map', symbols, ← map_token_dfs_root, List.map_map]
  refine List.map_congr_left fun located member => ?_
  show (_, _) = (_, _)
  rw [getArity, Nat.mod_eq_of_lt (countable _ (mem_subtrees_of_dfs member))]

/-- The word of a tree is a complete prefix code. -/
theorem closes_code {tree : CmmlToken} (keys : List Str)
    (narrow : ∀ inner ∈ subtrees tree, inner.getChildNodes.length ≤ 255) :
    Closes EncodedToken.arity 1 ((symbols tree).map (code keys)) := by
  rw [closes_map]
  refine (closes_congr ?_).mpr (closes_symbols tree)
  intro symbol member
  obtain ⟨inner, inside, rfl⟩ := List.mem_map.mp member
  have := narrow inner inside
  show inner.getChildNodes.length % 2 ^ 8 = inner.getChildNodes.length
  omega

/-- The meanings of a tree that is accepted are known to the dictionary. -/
theorem known_symbols (self : ExpressionEncoder) {tree : CmmlToken} {keys : List Str}
    (known : ∀ name ∈ namesOf ⟨false⟩ self ((dfs [.root tree]).takeWhile accepted), name ∈ keys)
    (all : (dfs [.root tree]).all accepted = true)
    (narrow : ∀ inner ∈ subtrees tree, inner.getChildNodes.length ≤ 255) :
    ∀ symbol ∈ symbols tree, symbol.1 ∈ keys ∧ symbol.2 ≤ encTokMaxArity := by
  intro symbol member
  obtain ⟨inner, inside, rfl⟩ := List.mem_map.mp member
  refine ⟨known _ ?_, narrow inner inside⟩
  have whole : (dfs [.root tree]).takeWhile accepted = dfs [.root tree] :=
    List.takeWhile_eq_self_iff.mpr (List.all_eq_true.mp all)
  rw [whole, namesOf_meanings]
  rw [← map_token_dfs_root] at inside
  obtain ⟨located, visited, rfl⟩ := List.mem_map.mp inside
  exact List.mem_map_of_mem (f := fun located : Located => located.token.getMeaning) visited

/-- **Equal encodings are equal trees.** Two trees without variables and ranges, with no `#` in a tag, are encoded by
harvest encoders over one dictionary that ends with fewer than `2 ^ 24 - 161` meanings; no node has `2 ^ 32` children.

* `encode` returns 0 if and only if every node has at most 255 children;
* when both succeed, the formulas are equal if and only if the trees are `equals`, that is the same tree up to the
  texts of `mtext`, and neither is a proper part of the other;
* a query encoder over the dictionary at the end writes the same formula and returns the same value. -/
theorem encode_injective {first second : ExpressionEncoder} {tree tree' : CmmlToken} {last : MeaningDictionary}
    (sharing : Sharing D ⟨false⟩ first second (.root tree) (.root tree') last)
    (few : last.map.length < 2 ^ 24 - 161)
    (free : tree.VariableFree) (free' : tree'.VariableFree)
    (plain : ∀ inner ∈ subtrees tree, '#' ∉ inner.getTag) (plain' : ∀ inner ∈ subtrees tree', '#' ∉ inner.getTag)
    (countable : Countable tree) (countable' : Countable tree') :
    let one := encode (D := D) .harvest first ⟨false⟩ (.root tree) none
    let two := encode (D := D) .harvest second ⟨false⟩ (.root tree') none
    let again := encode (D := D) .query (.new last) ⟨false⟩ (.root tree) none
    let again' := encode (D := D) .query (.new last) ⟨false⟩ (.root tree') none
    (one.2 = 0 ↔ ∀ inner ∈ subtrees tree, inner.getChildNodes.length ≤ 255) ∧
      (two.2 = 0 ↔ ∀ inner ∈ subtrees tree', inner.getChildNodes.length ≤ 255) ∧
      (one.2 = 0 → two.2 = 0 →
        (one.1.encodedFormula = two.1.encodedFormula ↔ tree.equals tree' = true) ∧
        (tree.equals tree' = true ↔ tree.SameTree tree') ∧
        (one.1.encodedFormula <+: two.1.encodedFormula → one.1.encodedFormula = two.1.encodedFormula) ∧
        (two.1.encodedFormula <+: one.1.encodedFormula → two.1.encodedFormula = one.1.encodedFormula)) ∧
      (again.1.encodedFormula = one.1.encodedFormula ∧ again.2 = one.2) ∧
      again'.1.encodedFormula = two.1.encodedFormula ∧ again'.2 = two.2 := by
  intro one two again again'
  have constants := constants_of_variableFree free
  have constants' := constants_of_variableFree free'
  obtain ⟨keys, roomy, numbered, coded, coded'⟩ := sharing.codes constants constants' few
  have accepts := all_accepted_iff free countable
  have accepts' := all_accepted_iff free' countable'
  refine ⟨coded.returns.trans accepts, coded'.returns.trans accepts', ?_, ?_, ?_⟩
  · intro fine fine'
    have narrow := accepts.mp (coded.returns.mp fine)
    have narrow' := accepts'.mp (coded'.returns.mp fine')
    have word : one.1.encodedFormula = (symbols tree).map (code keys) := by
      rw [show one.1.encodedFormula = _ from coded.formula,
        namedSymbols_eq_symbols first countable (coded.returns.mp fine)]
    have word' : two.1.encodedFormula = (symbols tree').map (code keys) := by
      rw [show two.1.encodedFormula = _ from coded'.formula,
        namedSymbols_eq_symbols second countable' (coded'.returns.mp fine')]
    rw [word, word']
    refine ⟨?_, equals_iff_sameTree free free' plain plain', (closes_code keys narrow).eq_of_front
      (closes_code keys narrow'), (closes_code keys narrow').eq_of_front (closes_code keys narrow)⟩
    rw [equals_iff free free']
    exact code_eq_iff roomy (known_symbols first coded.known (coded.returns.mp fine) narrow)
      (known_symbols second coded'.known (coded'.returns.mp fine') narrow')
  · exact coded.query numbered roomy constants (by rw [namesOf_meanings, namesOf_meanings]) none
  · exact coded'.query numbered roomy constants' (by rw [namesOf_meanings, namesOf_meanings]) none

/-- `<cn>3</cn>`. -/
def three : CmmlToken := .mk ['c', 'n'] [] ⟨['3'], isspace_of_all rfl⟩ []

/-- `<apply><cn>3</cn></apply>`. -/
def appliedThree : CmmlToken := .mk ['a', 'p', 'p', 'l', 'y'] [] .empty [three]

/-- The two trees, encoded one after the other into an empty dictionary. -/
theorem encode_injective_three :
    let one := encode (D := .whole) .harvest (.new empty) ⟨false⟩ (.root three) none
    let two := encode (D := .whole) .harvest one.1.encoder ⟨false⟩ (.root appliedThree) none
    one.2 = 0 ∧ two.2 = 0 ∧ one.1.encodedFormula ≠ two.1.encodedFormula := by
  intro one two
  have visits : dfs [.root three] = [.root three] := by rw [dfs_eq]; rfl
  have visits' : dfs [.root appliedThree] = [.root appliedThree, ⟨three, some appliedThree, [1]⟩] := by
    rw [dfs_eq]; rfl
  have few : two.1.encoder.meaningDictionary.map.length < 2 ^ 24 - 161 := by
    show (encodeLoop _ _ (dfs _) (startRound (encodeLoop _ _ (dfs _) _).1.encoder _)).1.encoder.meaningDictionary.map.length < _
    rw [visits, visits']
    decide
  have subtreesThree : subtrees three = [three] := rfl
  have subtreesApplied : subtrees appliedThree = [appliedThree, three] := rfl
  have result := @encode_injective .whole (.new empty) one.1.encoder three appliedThree
    two.1.encoder.meaningDictionary ⟨⟨[], rfl⟩, ⟨[], rfl⟩, ⟨[], rfl⟩⟩ few
    (by unfold VariableFree; rw [subtreesThree]; decide) (by unfold VariableFree; rw [subtreesApplied]; decide)
    (by rw [subtreesThree]; decide) (by rw [subtreesApplied]; decide)
    (by unfold Countable; rw [subtreesThree]; decide) (by unfold Countable; rw [subtreesApplied]; decide)
  have fine : one.2 = 0 := result.1.mpr (by rw [subtreesThree]; decide)
  have fine' : two.2 = 0 := result.2.1.mpr (by rw [subtreesApplied]; decide)
  refine ⟨fine, fine', fun same => ?_⟩
  exact absurd ((result.2.2.1 fine fine').1.mp same) (by decide)

/-! ### More children than a `uint32_t` counts -/

/-- A tree whose root has `number` child nodes, all of them the same. -/
def wideTree (child : CmmlToken) (number : Nat) : CmmlToken := .mk ['r'] [] .empty (List.replicate number child)

theorem subtrees_wideTree {child : CmmlToken} (childless : subtrees child = [child]) (number : Nat) :
    subtrees (wideTree child number) = wideTree child number :: List.replicate number child := by
  rw [subtrees_eq, wideTree, getChildNodes_mk]
  congr 1
  induction number with
  | zero => rfl
  | succ number ih => rw [List.replicate_succ, List.flatMap_cons, ih, childless]; rfl

/-- The two kinds of tokens of a wide tree. -/
theorem forall_wideTree {number : Nat} {P : CmmlToken → Prop} (root : P (wideTree three number)) (leaf : P three) :
    ∀ inner ∈ subtrees (wideTree three number), P inner := by
  rw [subtrees_wideTree rfl]
  intro inner member
  rcases List.mem_cons.mp member with rfl | member
  · exact root
  · rwa [(List.mem_replicate.mp member).2]

theorem variableFree_wideTree (number : Nat) : (wideTree three number).VariableFree := forall_wideTree rfl rfl

theorem meanings_wideTree (number : Nat) (self : ExpressionEncoder) :
    ∀ name ∈ namesOf ⟨false⟩ self ((dfs [.root (wideTree three number)]).takeWhile accepted),
      name ∈ [['r', '#'], ['c', 'n', '#', '3']] := by
  rw [namesOf_meanings]
  intro name member
  obtain ⟨located, visited, rfl⟩ := List.mem_map.mp member
  exact forall_wideTree (P := fun token => token.getMeaning ∈ [['r', '#'], ['c', 'n', '#', '3']])
    List.mem_cons_self (by decide) _ (mem_subtrees_of_dfs (List.takeWhile_subset _ visited))

/-- A root with `2 ^ 32` children counts as one without. -/
theorem encode_wideTree (number : Nat) (wraps : number % 2 ^ 32 ≤ 255) :
    let one := encode (D := D) .harvest (.new empty) ⟨false⟩ (.root (wideTree three number)) none
    one.2 = 0 ∧ one.1.encoder.meaningDictionary.map.length ≤ 2 := by
  intro one
  have constants := constants_of_variableFree (variableFree_wideTree number)
  have short : (concatAll [] (namesOf ⟨false⟩ (.new empty)
      ((dfs [.root (wideTree three number)]).takeWhile accepted))).length ≤ 2 := by
    rw [length_concatAll]
    refine le_trans (Finset.card_le_card (t := [['r', '#'], ['c', 'n', '#', '3']].toFinset) ?_) (by decide)
    intro name member
    exact List.mem_toFinset.mpr (meanings_wideTree number _ name (List.mem_toFinset.mp member))
  have roomy : Roomy _ := lt_of_le_of_lt short (by decide)
  obtain ⟨numbered, -, rv⟩ := @harvestCode D _ (.new empty) [] _ numbered_empty constants roomy none
  have all : (dfs [.root (wideTree three number)]).all accepted = true := by
    refine List.all_eq_true.mpr (forall_dfs_root (P := fun token =>
      (token.isVar || token.isRange || decide (token.getArity ≤ encTokMaxArity)) = true) |>.mpr ?_)
    refine forall_wideTree ?_ rfl
    have fits : (wideTree three number).getArity ≤ encTokMaxArity := by
      rw [getArity, wideTree, getChildNodes_mk, List.length_replicate]
      exact wraps
    rw [decide_eq_true fits, Bool.or_true]
  refine ⟨?_, ?_⟩
  · rw [show one.2 = _ from rv, if_pos all]
  · show (encodeLoop _ _ _ _).1.encoder.meaningDictionary.map.length ≤ 2
    rw [numbered.map_eq, List.length_map, List.length_zipIdx]
    exact short

/-- A tree that is encoded although its root has more than 255 children. -/
theorem encode_wideTree_accepted :
    ∃ tree : CmmlToken, tree.VariableFree ∧ (∀ inner ∈ subtrees tree, '#' ∉ inner.getTag) ∧
      (encode (D := .whole) .harvest (.new empty) ⟨false⟩ (.root tree) none).1.encoder.meaningDictionary.map.length <
        2 ^ 24 - 161 ∧
      (encode (D := .whole) .harvest (.new empty) ⟨false⟩ (.root tree) none).2 = 0 ∧
      ¬∀ inner ∈ subtrees tree, inner.getChildNodes.length ≤ 255 := by
  obtain ⟨returned, short⟩ := encode_wideTree (D := .whole) (2 ^ 32) (by decide)
  refine ⟨wideTree three (2 ^ 32), variableFree_wideTree _, forall_wideTree ?_ (by decide),
    lt_of_le_of_lt short (by decide), returned, fun narrow => ?_⟩
  · show '#' ∉ ['r']
    decide
  · have root := narrow _ (mem_subtrees_self _)
    rw [wideTree, getChildNodes_mk, List.length_replicate] at root
    exact absurd root (by decide)

end ExpressionEncoder

end MathWebSearch
