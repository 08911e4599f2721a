/-
**The shape of encodings** (`ExpressionEncoder::encode`).

`encode` writes a token for every node of the tree, with the number of child nodes as arity if the node is a constant,
and with arity 1 if it is a variable or a range, whatever child nodes it has.

* `arities_encode` — the arities of an encoding that was accepted.
* `Regular` — the arities of a tree are its numbers of child nodes.
* `regular_iff` — a tree is regular if and only if all of its subtrees are complete prefix codes.
* `encode_stems` — tokens of arity 0 are constants, and their ids come from the dictionary.
-/

import MathWebSearch.Index.EncodingInjective
import MathWebSearch.Index.IdClasses

namespace MathWebSearch

open CmmlToken IdDictionary PrefixCode

namespace ExpressionEncoder

variable {D : Doubles}

/-! ### Arities -/

/-- One round that goes on writes a token with the arity of the node. -/
theorem arities_encodeNode (kind : EncoderKind) (config : EncoderConfig) (round : Round D) {located : Located}
    (goesOn : accepted located = true) :
    (encodeNode kind config round located).encodedFormula.map EncodedToken.arity =
      round.encodedFormula.map EncodedToken.arity ++ [arityOf located.token] := by
  cases type : located.token.getType with
  | var =>
    have isVar : located.token.isVar = true := by rw [CmmlToken.isVar, type]; rfl
    rw [arityOf, type]
    unfold encodeNode encodeToken
    simp only [isVar, if_true]
    split <;> simp
  | range =>
    have noVar : located.token.isVar = false := by rw [CmmlToken.isVar, type]; rfl
    have isRange : located.token.isRange = true := by rw [CmmlToken.isRange, type]; rfl
    rw [arityOf, type]
    unfold encodeNode encodeToken
    simp [noVar, isRange]
  | constant =>
    have narrow : located.token.getArity ≤ encTokMaxArity := by
      rw [accepted, CmmlToken.isVar, CmmlToken.isRange, type] at goesOn
      exact of_decide_eq_true goesOn
    have small : located.token.getArity < 2 ^ 8 := lt_of_le_of_lt narrow (by decide)
    rw [arityOf, type, encodeNode_plain kind config round ⟨type, narrow⟩, List.map_append, List.map_singleton,
      encodedToken_arity, Nat.mod_eq_of_lt small]

theorem arities_foldl (kind : EncoderKind) (config : EncoderConfig) (tokens : List Located) : ∀ round : Round D,
    (∀ located ∈ tokens, accepted located = true) →
    (tokens.foldl (encodeNode kind config) round).encodedFormula.map EncodedToken.arity =
      round.encodedFormula.map EncodedToken.arity ++ tokens.map fun located => arityOf located.token := by
  induction tokens with
  | nil => intro round _; simp
  | cons located rest ih =>
    intro round all
    rw [List.foldl_cons, ih _ fun other member => all other (List.mem_cons_of_mem _ member),
      arities_encodeNode kind config round (all located List.mem_cons_self)]
    simp

/-- **The arities of an encoding that was accepted.** -/
theorem arities_encode (kind : EncoderKind) (self : ExpressionEncoder) (config : EncoderConfig) (expression : Located)
    (info : Option (ExpressionInfo D)) (ok : (encode kind self config expression info).2 = 0) :
    (encode kind self config expression info).1.encodedFormula.map EncodedToken.arity =
      (subtrees expression.token).map arityOf := by
  have all : ∀ located ∈ dfs [expression], accepted located = true := by
    rw [encode, encodeLoop_eq] at ok
    refine List.all_eq_true.mp (Bool.not_eq_false _ ▸ fun some => ?_)
    simp only [some] at ok
    cases ok
  rw [encode, encodeLoop_all kind config all, arities_foldl kind config _ _ all, startRound, List.map_nil,
    List.nil_append, dfs_eq, List.flatMap_singleton, ← map_token_preorder_eq_subtrees expression.token
      expression.parent expression.position, List.map_map]
  rfl

/-! ### Regular trees -/

/-- **The arities of the nodes are their numbers of child nodes**: variables and ranges have one each, and constants not
too many to be counted. -/
def Regular (tree : CmmlToken) : Prop :=
  ∀ node ∈ subtrees tree, if node.getType = .constant then node.getChildNodes.length < 2 ^ 32
    else node.getChildNodes.length = 1

theorem arityOf_eq_length_iff (node : CmmlToken) : arityOf node = node.getChildNodes.length ↔
    if node.getType = .constant then node.getChildNodes.length < 2 ^ 32 else node.getChildNodes.length = 1 := by
  unfold arityOf
  cases node.getType with
  | constant =>
    rw [if_pos rfl, getArity]
    exact ⟨fun same => same ▸ Nat.mod_lt _ (by decide), Nat.mod_eq_of_lt⟩
  | var => exact eq_comm
  | range => exact eq_comm

theorem Regular.subtree {tree inner : CmmlToken} (regular : Regular tree) (member : inner ∈ subtrees tree) :
    Regular inner := fun node inside => regular node (subtrees_trans member inside)

/-- **A tree is regular if and only if every subtree is a complete prefix code.** -/
theorem regular_iff (tree : CmmlToken) :
    Regular tree ↔ ∀ inner ∈ subtrees tree, Closes arityOf 1 (subtrees inner) := by
  constructor
  · intro regular inner member
    have regular := regular.subtree member
    clear member
    induction inner with
    | mk tag attributes text children ih =>
      have arity := (arityOf_eq_length_iff _).mpr (regular _ (mem_subtrees_self _))
      rw [subtrees_eq, closes_cons, Nat.zero_add, arity]
      refine closes_flatMap fun child member => ih child member ?_
      exact regular.subtree (mem_subtrees_of_child member (mem_subtrees_self child))
  · intro complete node member
    have whole := complete node member
    rw [subtrees_eq, closes_cons, Nat.zero_add] at whole
    have children : Closes arityOf node.getChildNodes.length (node.getChildNodes.flatMap subtrees) :=
      closes_flatMap fun child inside =>
        complete child (subtrees_trans member (mem_subtrees_of_child inside (mem_subtrees_self child)))
    exact (arityOf_eq_length_iff node).mp (whole.unique children)

/-- An encoding is a complete prefix code if and only if the arities of the nodes are. -/
theorem isPrefixCode_encode_iff (kind : EncoderKind) (self : ExpressionEncoder) (config : EncoderConfig)
    (expression : Located) (info : Option (ExpressionInfo D))
    (ok : (encode kind self config expression info).2 = 0) :
    (encode kind self config expression info).1.encodedFormula.IsPrefixCode ↔
      Closes arityOf 1 (subtrees expression.token) := by
  rw [EncodedFormula.isPrefixCode_iff]
  have formula : Closes id 1 ((encode kind self config expression info).1.encodedFormula.map EncodedToken.arity) ↔
      Closes EncodedToken.arity 1 (encode kind self config expression info).1.encodedFormula :=
    closes_map EncodedToken.arity
  have nodes : Closes id 1 ((subtrees expression.token).map arityOf) ↔
      Closes arityOf 1 (subtrees expression.token) := closes_map arityOf
  rw [arities_encode kind self config expression info ok] at formula
  exact formula.symm.trans nodes

/-! ### Meanings -/

/-- The id of a token was given out by one of the `put` calls. -/
def Stems (puts : List Str) (token : EncodedToken) : Prop :=
  ∃ front meaning back, puts = front ++ meaning :: back ∧
    token.id = (constantIdMin + ((putAll empty front).1.put meaning).2) % 2 ^ 24

theorem Stems.append {puts : List Str} {token : EncodedToken} (stems : Stems puts token) (more : List Str) :
    Stems (puts ++ more) token := by
  obtain ⟨front, meaning, back, rfl, id⟩ := stems
  exact ⟨front, meaning, back ++ more, by rw [List.append_assoc, List.cons_append], id⟩

/-- The decoder knows its meaning. -/
theorem Stems.getMeaning {puts : List Str} {token : EncodedToken} (stems : Stems puts token)
    (few : puts.toFinset.card < 2 ^ 24 - 161) :
    ∃ meaning, (ExpressionDecoder.new (putAll empty puts).1).getMeaning token.id = some meaning := by
  obtain ⟨front, meaning, back, rfl, id⟩ := stems
  rw [id]
  exact ⟨meaning, getMeaning_encoded few 0⟩

/-- All tokens of arity 0 have ids from the dictionary, which is made by `put` calls. -/
structure Stemming (puts : List Str) (dictionary : MeaningDictionary) (formula : EncodedFormula) : Prop where
  dictionary : dictionary = (putAll empty puts).1
  stems : ∀ token ∈ formula, token.arity = 0 → Stems puts token

/-- A token of another arity. -/
theorem Stemming.inner {puts : List Str} {dictionary : MeaningDictionary} {formula : EncodedFormula}
    (stemming : Stemming puts dictionary formula) {token : EncodedToken} (arity : token.arity ≠ 0) :
    Stemming puts dictionary (formula ++ [token]) := by
  refine ⟨stemming.dictionary, fun other member flat => ?_⟩
  rcases List.mem_append.mp member with old | new
  · exact stemming.stems other old flat
  · rw [List.mem_singleton.mp new] at flat
    exact absurd flat arity

/-- One round of a harvest encoder. -/
theorem Stemming.encodeNode {puts : List Str} {round : Round D}
    (stemming : Stemming puts round.encoder.meaningDictionary round.encodedFormula) (config : EncoderConfig)
    {located : Located} (goesOn : accepted located = true) :
    ∃ more, Stemming (puts ++ more) (encodeNode .harvest config round located).encoder.meaningDictionary
      (encodeNode .harvest config round located).encodedFormula := by
  have hole : ∀ id, (encodedToken id 1).arity ≠ 0 := fun id => Nat.one_ne_zero
  cases type : located.token.getType with
  | var =>
    have isVar : located.token.isVar = true := by rw [CmmlToken.isVar, type]; rfl
    refine ⟨[], ?_⟩
    rw [List.append_nil]
    unfold ExpressionEncoder.encodeNode encodeToken
    simp only [isVar, if_true]
    split
    · exact stemming.inner (hole _)
    · exact stemming.inner (hole _)
  | range =>
    have noVar : located.token.isVar = false := by rw [CmmlToken.isVar, type]; rfl
    have isRange : located.token.isRange = true := by rw [CmmlToken.isRange, type]; rfl
    refine ⟨[], ?_⟩
    rw [List.append_nil]
    unfold ExpressionEncoder.encodeNode encodeToken
    simp only [noVar, Bool.false_eq_true, if_false, isRange, if_true]
    exact stemming.inner (hole _)
  | constant =>
    obtain ⟨dictionary, stems⟩ := stemming
    have narrow : located.token.getArity ≤ encTokMaxArity := by
      rw [accepted, CmmlToken.isVar, CmmlToken.isRange, type] at goesOn
      exact of_decide_eq_true goesOn
    rw [encodeNode_plain .harvest config round ⟨type, narrow⟩]
    have same := meaningDictionary_constantName config round.encoder located
    generalize constantName config round.encoder located = named at same
    refine ⟨[named.2], ?_, fun token member flat => ?_⟩
    · show (named.1.meaningDictionary.put named.2).1 = _
      rw [same, dictionary, putAll_append]
      rfl
    · rcases List.mem_append.mp member with old | new
      · exact (stems token old flat).append _
      · rw [List.mem_singleton.mp new]
        refine ⟨puts, named.2, [], rfl, ?_⟩
        rw [← dictionary, ← same]
        rfl

theorem Stemming.foldl (config : EncoderConfig) (tokens : List Located) : ∀ {puts : List Str} {round : Round D},
    Stemming puts round.encoder.meaningDictionary round.encodedFormula →
    (∀ located ∈ tokens, accepted located = true) →
    ∃ more, Stemming (puts ++ more) (tokens.foldl (ExpressionEncoder.encodeNode .harvest config) round).encoder.meaningDictionary
      (tokens.foldl (ExpressionEncoder.encodeNode .harvest config) round).encodedFormula := by
  induction tokens with
  | nil =>
    intro puts round stemming _
    exact ⟨[], by rw [List.append_nil]; exact stemming⟩
  | cons located rest ih =>
    intro puts round stemming all
    obtain ⟨more, next⟩ := stemming.encodeNode config (all located List.mem_cons_self)
    obtain ⟨more', last⟩ := ih next fun other member => all other (List.mem_cons_of_mem _ member)
    exact ⟨more ++ more', by rw [← List.append_assoc]; exact last⟩

/-- **The ids of constants come from the dictionary.** -/
theorem encode_stems {puts : List Str} {self : ExpressionEncoder}
    (dictionary : self.meaningDictionary = (putAll empty puts).1) (config : EncoderConfig) (expression : Located)
    (info : Option (ExpressionInfo D)) :
    ∃ more, Stemming (puts ++ more) (encode .harvest self config expression info).1.encoder.meaningDictionary
      (encode .harvest self config expression info).1.encodedFormula := by
  rw [encode, encodeLoop_eq]
  have start : Stemming puts (self.startRound info).encoder.meaningDictionary (self.startRound info).encodedFormula :=
    ⟨dictionary, fun token member => by cases member⟩
  exact start.foldl config _ fun located member => List.mem_takeWhile_imp member

end ExpressionEncoder

end MathWebSearch
