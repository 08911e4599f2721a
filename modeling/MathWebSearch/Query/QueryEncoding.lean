/-
**What a query is encoded as** (`QueryEncoder`, `encode` with an `ExpressionInfo`).

The search takes variables and ranges as whole subterms, and asks for the bounds of every range.

* `Bare` — the variables and ranges of a query tree have no child nodes.
* `EnoughIds` — as many variables and ranges as there are ids for.
* `Searchable` — what `encode` has written so far: the arities the search sees, and the bounds of the ranges.
* `encode_isQueryCode` — a bare tree that is accepted is encoded as a complete query, and all of its ranges have bounds.
-/

import MathWebSearch.Index.EncodedShape
import MathWebSearch.Query.SearchSpec

namespace MathWebSearch

open CmmlToken IdDictionary PrefixCode PatternWord

namespace ExpressionEncoder

variable {D : Doubles}

/-- **Variables and ranges have no child nodes**, and constants not too many to be counted. -/
def Bare (tree : CmmlToken) : Prop :=
  ∀ node ∈ subtrees tree, if node.getType = .constant then node.getChildNodes.length < 2 ^ 32
    else node.getChildNodes = []

/-- No variable gets an id behind those of variables, and no range one behind those of ranges. -/
structure EnoughIds (kinds : List NodeKind) : Prop where
  fewNames : (varNames kinds).toFinset.card ≤ 127
  fewAnonymous : kinds.count .anonymous ≤ 96
  fewRanges : kinds.count .range ≤ 32

theorem EnoughIds.front {front back : List NodeKind} (enough : EnoughIds (front ++ back)) : EnoughIds front := by
  obtain ⟨fewNames, fewAnonymous, fewRanges⟩ := enough
  rw [varNames_append, List.toFinset_append] at fewNames
  rw [List.count_append] at fewAnonymous fewRanges
  exact ⟨le_trans (Finset.card_le_card Finset.subset_union_left) fewNames, by omega, by omega⟩

/-- The arity the search sees. -/
def queryArityOf (token : CmmlToken) : Nat := if token.getType = .constant then token.getArity else 0

/-! ### Roles -/

theorem queryArity_hole {token : EncodedToken} (hole : token.id ≤ rangeIdMax) : token.queryArity = 0 := by
  refine patternArity_hole fun constant => ?_
  unfold EncodedToken.role at constant
  split_ifs at constant with isVar isAnonVar isRange
  rw [EncodedToken.isVar, decide_eq_true_eq, varIdMax] at isVar
  rw [EncodedToken.isRange, Bool.and_eq_true, decide_eq_true_eq, decide_eq_true_eq, rangeIdMin] at isRange
  omega

theorem queryArity_constant {token : EncodedToken} (constant : token.IsConstant) :
    token.queryArity = token.arity := by
  refine patternArity_constant ?_
  rw [EncodedToken.role, constant.isVar_eq, constant.isRange_eq]
  rfl

/-! ### One node -/

/-- What `encode` has written behind nodes. -/
structure Searchable (keys : List Str) (front : List Located) (round : Round D) : Prop extends
    After .query keys (kindsOf front) round where
  arities : round.encodedFormula.map EncodedToken.queryArity = front.map fun located => queryArityOf located.token
  bounds : ∃ info, round.expressionInfo = some info ∧
    ∀ token ∈ round.encodedFormula, token.isRange = true → (info.rangeBounds.lookup token.id).isSome

/-- Renaming is for constants only. -/
theorem encodeNode_config (kind : EncoderKind) (config : EncoderConfig) (round : Round D) {located : Located}
    (special : located.token.getType ≠ .constant) :
    encodeNode kind config round located = encodeNode kind ⟨false⟩ round located := by
  unfold encodeNode encodeToken
  cases type : located.token.getType with
  | constant => exact absurd type special
  | var => simp only [CmmlToken.isVar, type, decide_true, if_true]
  | range => simp [CmmlToken.isVar, CmmlToken.isRange, type]

theorem isSome_lookup_append {front back : List (Nat × D.Carrier × D.Carrier)} {id : Nat}
    (found : (front.lookup id).isSome) : ((front ++ back).lookup id).isSome := by
  obtain ⟨bounds, found⟩ := Option.isSome_iff_exists.mp found
  rw [List.lookup_append, found]
  rfl

section Nodes

variable {keys : List Str} {front : List Located} {round : Round D} {located : Located}

theorem kindsOf_concat (front : List Located) (located : Located) :
    kindsOf (front ++ [located]) = kindsOf front ++ [nodeKind located.token] := List.map_append

/-- A node that writes one token, and adds bounds. -/
theorem Searchable.write {next : Round D} {token : EncodedToken} {more : List (Nat × D.Carrier × D.Carrier)}
    (searchable : Searchable keys front round) (after : After .query keys (kindsOf (front ++ [located])) next)
    (formula : next.encodedFormula = round.encodedFormula ++ [token])
    (arity : token.queryArity = queryArityOf located.token)
    (info : ∀ info, round.expressionInfo = some info →
      ∃ info', next.expressionInfo = some info' ∧ info'.rangeBounds = info.rangeBounds ++ more)
    (known : token.isRange = true → ((more.lookup token.id)).isSome) : Searchable keys (front ++ [located]) next := by
  refine ⟨after, ?_, ?_⟩
  · rw [formula, List.map_append, List.map_append, searchable.arities, List.map_singleton, List.map_singleton, arity]
  · obtain ⟨before, given, bounds⟩ := searchable.bounds
    obtain ⟨info', given', grown⟩ := info before given
    refine ⟨info', given', fun other member isRange => ?_⟩
    rw [formula] at member
    rw [grown]
    rcases List.mem_append.mp member with old | new
    · exact isSome_lookup_append (bounds other old isRange)
    · obtain rfl := List.mem_singleton.mp new
      rw [List.lookup_append]
      cases before.rangeBounds.lookup other.id with
      | some _ => rfl
      | none => exact known isRange

/-- A variable. -/
theorem Searchable.var (searchable : Searchable keys front round)
    (enough : EnoughIds (kindsOf (front ++ [located]))) (isVar : located.token.getType = .var) :
    Searchable keys (front ++ [located]) (encodeNode .query ⟨false⟩ round located) := by
  have test : located.token.isVar = true := by rw [CmmlToken.isVar, isVar]; rfl
  have goesOn : accepted located = true := by rw [accepted, test]; rfl
  have writes := searchable.toAfter.writes goesOn
  have names : (concatAll [] (varNames (kindsOf front ++ [nodeKind located.token]))).length < 2 ^ 32 - 1 := by
    rw [length_concatAll, ← kindsOf_concat]
    exact lt_of_le_of_lt enough.fewNames (by decide)
  have after := writes.after names searchable.dictionary.small
  rw [← kindsOf_concat] at after
  have arity : queryArityOf located.token = 0 := by rw [queryArityOf, isVar]; rfl
  have small : idAfter .query keys (kindsOf front) (nodeKind located.token) ≤ varIdMax := by
    rw [kindsOf_concat] at enough
    rcases nodeKind_var test with ⟨-, kind⟩ | ⟨-, kind⟩
    · have few := enough.fewNames
      rw [kind] at few ⊢
      rw [varNames_append, ← length_concatAll] at few
      have place : numberOf (concatAll [] (varNames (kindsOf front) ++ [located.token.getVarName]))
          located.token.getVarName ≤ 127 :=
        le_trans (numberOf_le ((mem_concatAll _).mpr (Or.inr (List.mem_append_right _ List.mem_cons_self)))) few
      rw [idAfter, hvarIdMin, varIdMax]
      omega
    · have few := enough.fewAnonymous
      rw [kind, count_concat_self] at few
      rw [kind, idAfter, anonHvarIdMin, varIdMax]
      omega
  have id : (encodedToken (idAfter .query keys (kindsOf front) (nodeKind located.token))
      (arityOf located.token)).id ≤ varIdMax := le_trans (Nat.mod_le _ _) small
  refine @Searchable.write D keys front round located _ _ [] searchable after writes.formula ?_ ?_ ?_
  · rw [arity]
    exact queryArity_hole (le_trans id (by decide))
  · intro info given
    unfold encodeNode encodeToken
    simp only [test, if_true]
    split
    · exact ⟨info, given, (List.append_nil _).symm⟩
    · simp only [Option.getD_some, given, Option.map_some]
      exact ⟨_, rfl, (List.append_nil _).symm⟩
  · intro isRange
    rw [EncodedToken.isRange, Bool.and_eq_true, decide_eq_true_eq, rangeIdMin] at isRange
    rw [varIdMax] at id
    omega

/-- A range: its bounds are noted. -/
theorem Searchable.range (searchable : Searchable keys front round)
    (enough : EnoughIds (kindsOf (front ++ [located]))) (isRange : located.token.getType = .range) :
    Searchable keys (front ++ [located]) (encodeNode .query ⟨false⟩ round located) := by
  have noVar : located.token.isVar = false := by rw [CmmlToken.isVar, isRange]; rfl
  have test : located.token.isRange = true := by rw [CmmlToken.isRange, isRange]; rfl
  have goesOn : accepted located = true := by rw [accepted, test, Bool.or_true]; rfl
  have writes := searchable.toAfter.writes goesOn
  have names : (concatAll [] (varNames (kindsOf front ++ [nodeKind located.token]))).length < 2 ^ 32 - 1 := by
    rw [length_concatAll, ← kindsOf_concat]
    exact lt_of_le_of_lt enough.fewNames (by decide)
  have after := writes.after names searchable.dictionary.small
  rw [← kindsOf_concat] at after
  have arity : queryArityOf located.token = 0 := by rw [queryArityOf, isRange]; rfl
  have few := enough.fewRanges
  rw [kindsOf_concat, nodeKind_range test, count_concat_self, ← searchable.anonRangeId] at few
  have formula : (encodeNode .query ⟨false⟩ round located).encodedFormula = round.encodedFormula ++
      [encodedToken (getRangeOffset + round.anonRangeId) 1] := by
    unfold encodeNode encodeToken
    simp only [noVar, Bool.false_eq_true, if_false, test, if_true]
    rfl
  refine @Searchable.write D keys front round located _ _
    [((encodedToken (getRangeOffset + round.anonRangeId) 1).id, located.token.getRangeBounds D)] searchable after
    formula ?_ ?_ ?_
  · rw [arity]
    refine queryArity_hole (le_trans (Nat.mod_le _ _) ?_)
    rw [getRangeOffset, rangeIdMin, rangeIdMax]
    omega
  · intro info given
    unfold encodeNode encodeToken
    simp only [noVar, Bool.false_eq_true, if_false, test, if_true]
    simp only [Option.getD_some, given, Option.map_some]
    exact ⟨_, rfl, rfl⟩
  · intro _
    rw [List.lookup_cons_self]
    rfl

/-- A constant that is known. -/
theorem Searchable.constant (config : EncoderConfig) (searchable : Searchable keys front round) (roomy : Roomy keys)
    (constant : located.token.getType = .constant) (narrow : located.token.getArity ≤ encTokMaxArity)
    (known : (encodeNode .query config round located).rv = 0) :
    Searchable keys (front ++ [located]) (encodeNode .query config round located) := by
  have node := @encodeNode_plain D .query config round located ⟨constant, narrow⟩
  simp only [] at node
  rw [node] at known ⊢
  generalize namedEq : constantName config round.encoder located = named at known ⊢
  have dictionary : named.1.meaningDictionary = round.encoder.meaningDictionary := by
    rw [← namedEq]
    exact meaningDictionary_constantName config round.encoder located
  have numbered : named.1.meaningDictionary.Numbered (keysAfter .query keys []) := by
    rw [dictionary]
    exact searchable.dictionary
  have id := getConstantEncoding_id numbered named.2
  have unchanged : (named.1.getConstantEncoding .query named.2).1 = named.1 := rfl
  have found : (named.1.getConstantEncoding .query named.2).2 % 2 ^ 24 ≠ keyNotFound := by
    intro missing
    rw [if_pos missing] at known
    cases known
  have member : named.2 ∈ keys := by
    by_contra absent
    rw [id] at found
    exact found (by rw [constantId, keysAfter, if_neg absent]; rfl)
  have place := numberOf_le member
  have big : (encodedToken (named.1.getConstantEncoding .query named.2).2 located.token.getArity).IsConstant := by
    unfold Roomy at roomy
    rw [EncodedToken.IsConstant, encodedToken_id, id, constantId, keysAfter, if_pos member, constantIdMin]
    omega
  have arity : located.token.getArity % 2 ^ 8 = located.token.getArity :=
    Nat.mod_eq_of_lt (lt_of_le_of_lt narrow (by decide))
  refine @Searchable.write D keys front round located _ _ [] searchable ?_ rfl ?_ ?_ ?_
  · rw [kindsOf_concat, nodeKind_constant constant]
    refine ⟨?_, ?_, ?_, ?_⟩
    · rw [varNames_concat_other rfl]
      exact searchable.names
    · rw [count_concat_other (by simp)]
      exact searchable.anonVarId
    · rw [count_concat_other (by simp)]
      exact searchable.anonRangeId
    · show (named.1.getConstantEncoding .query named.2).1.meaningDictionary.Numbered keys
      rw [unchanged, dictionary]
      exact searchable.dictionary
  · rw [queryArity_constant big, encodedToken_arity, arity, queryArityOf, if_pos constant]
  · intro info given
    exact ⟨info, given, (List.append_nil _).symm⟩
  · intro isRange
    rw [big.isRange_eq] at isRange
    cases isRange

/-- **One node**, whatever its kind. -/
theorem Searchable.next (config : EncoderConfig) (searchable : Searchable keys front round) (roomy : Roomy keys)
    (enough : EnoughIds (kindsOf (front ++ [located]))) (goesOn : accepted located = true)
    (known : (encodeNode .query config round located).rv = 0) :
    Searchable keys (front ++ [located]) (encodeNode .query config round located) := by
  cases type : located.token.getType with
  | constant =>
    rw [accepted, CmmlToken.isVar, CmmlToken.isRange, type] at goesOn
    exact searchable.constant config roomy type (of_decide_eq_true goesOn) known
  | var =>
    rw [encodeNode_config .query config round (by rw [type]; decide)]
    exact searchable.var enough type
  | range =>
    rw [encodeNode_config .query config round (by rw [type]; decide)]
    exact searchable.range enough type

end Nodes

/-- The value that is returned stays what it is once it is not 0. -/
theorem rv_foldl (kind : EncoderKind) (config : EncoderConfig) (nodes : List Located) : ∀ round : Round D,
    (nodes.foldl (encodeNode kind config) round).rv = 0 → round.rv = 0 := by
  induction nodes with
  | nil => intro round ok; exact ok
  | cons located rest ih =>
    intro round ok
    have next := ih _ ok
    unfold encodeNode encodeToken at next
    simp only [] at next
    split_ifs at next <;> simp_all

/-- All nodes. -/
theorem Searchable.foldl {keys : List Str} (config : EncoderConfig) (roomy : Roomy keys) (nodes : List Located) :
    ∀ {front : List Located} {round : Round D}, Searchable keys front round →
      (∀ located ∈ nodes, accepted located = true) → EnoughIds (kindsOf (front ++ nodes)) →
      (nodes.foldl (encodeNode .query config) round).rv = 0 →
      Searchable keys (front ++ nodes) (nodes.foldl (encodeNode .query config) round) := by
  induction nodes with
  | nil =>
    intro front round searchable _ _ _
    rw [List.append_nil]
    exact searchable
  | cons located rest ih =>
    intro front round searchable all enough ok
    have regroup : front ++ located :: rest = (front ++ [located]) ++ rest := by
      rw [List.append_assoc, List.singleton_append]
    rw [regroup] at enough ⊢
    have here : EnoughIds (kindsOf (front ++ [located])) := by
      rw [kindsOf, List.map_append] at enough
      exact enough.front
    have next := searchable.next config roomy here (all located List.mem_cons_self)
      (rv_foldl .query config rest _ ok)
    exact ih next (fun other member => all other (List.mem_cons_of_mem _ member)) enough ok

/-! ### Whole queries -/

theorem queryArityOf_eq_length {tree node : CmmlToken} (bare : Bare tree) (member : node ∈ subtrees tree) :
    queryArityOf node = node.getChildNodes.length := by
  have shape := bare node member
  unfold queryArityOf
  split at shape
  · rename_i constant
    rw [if_pos constant, getArity, Nat.mod_eq_of_lt shape]
  · rename_i special
    rw [if_neg special, shape, List.length_nil]

/-- The subtrees of a bare tree, read as a word. -/
theorem closes_of_bare {tree : CmmlToken} (bare : Bare tree) : Closes queryArityOf 1 (subtrees tree) := by
  induction tree with
  | mk tag attributes text children ih =>
    rw [subtrees_eq, closes_cons, Nat.zero_add, queryArityOf_eq_length bare (mem_subtrees_self _)]
    refine closes_flatMap fun child member => ih child member fun node inside => ?_
    exact bare node (mem_subtrees_of_child member inside)

/-- **A bare tree that is accepted is encoded as a complete query**, and its ranges have bounds. -/
theorem encode_isQueryCode {self : ExpressionEncoder} {keys : List Str}
    (numbered : self.meaningDictionary.Numbered keys) (roomy : Roomy keys) (config : EncoderConfig) {tree : CmmlToken}
    (bare : Bare tree) (enough : EnoughIds ((subtrees tree).map nodeKind)) (info : ExpressionInfo D)
    (ok : (encode .query self config (.root tree) (some info)).2 = 0) :
    (encode .query self config (.root tree) (some info)).1.encodedFormula.IsQueryCode ∧
      ∃ info', (encode .query self config (.root tree) (some info)).1.expressionInfo = some info' ∧
        ∀ token ∈ (encode .query self config (.root tree) (some info)).1.encodedFormula, token.isRange = true →
          (info'.rangeBounds.lookup token.id).isSome := by
  have all : ∀ located ∈ dfs [Located.root tree], accepted located = true := by
    rw [encode, encodeLoop_eq] at ok
    refine List.all_eq_true.mp (Bool.not_eq_false _ ▸ fun some => ?_)
    simp only [some] at ok
    cases ok
  have visited : (dfs [Located.root tree]).map Located.token = subtrees tree := by
    rw [dfs_eq, List.flatMap_singleton]
    exact map_token_preorder_eq_subtrees _ _ _
  have start : Searchable keys [] (self.startRound (some info)) :=
    ⟨after_startRound .query numbered (some info), rfl, info, rfl, fun token member => by cases member⟩
  have kinds : kindsOf (dfs [Located.root tree]) = (subtrees tree).map nodeKind := by
    rw [← visited, List.map_map]
    rfl
  rw [encode, encodeLoop_all .query config all] at ok ⊢
  have searchable := start.foldl config roomy (dfs [Located.root tree]) all (by rw [List.nil_append, kinds]; exact enough) ok
  refine ⟨?_, searchable.bounds⟩
  have nodes : Closes id 1 ((subtrees tree).map queryArityOf) := (closes_map queryArityOf).mpr (closes_of_bare bare)
  have arities := searchable.arities
  rw [List.nil_append, show (fun located : Located => queryArityOf located.token) = queryArityOf ∘ Located.token from rfl,
    ← List.map_map, visited] at arities
  rw [← arities] at nodes
  exact EncodedFormula.isQueryCode_iff.mpr ((closes_map EncodedToken.queryArity).mp nodes)

end ExpressionEncoder

end MathWebSearch
