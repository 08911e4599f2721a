/-
**What a query tree asks for** (`QueryEncoder::encode`, `SearchContext`).

The search compares words. Here is what it compares of the trees.

* `Fills` — a tree is a query tree with its variables and ranges filled; `AnswersQuery` — it is for some assignment.
* `Stands` — what a token of the encoded query says of the node it was written for.
* `encode_known_iff`, `encode_stands` — when a query is accepted, and that its tokens stand for its nodes.
* `readsOff` — the encoded query reads the formula of a tree off a word exactly when the tree fills the query.
* `exists_instance_iff` — **the formulas that match** are those of the trees that answer the query.
-/

import MathWebSearch.Index.IndexedTrees
import MathWebSearch.Query.QueryEncoding
import MathWebSearch.Query.RangeBounds

namespace MathWebSearch

open CmmlToken IdDictionary PrefixCode PatternWord ExpressionEncoder SearchContext

namespace QueryTrees

variable {D : Doubles}

/-! ### Lists that go in step -/

theorem forall₂_imp_of_mem {α β : Type} {R S : α → β → Prop} {items : List α} {values : List β}
    (related : List.Forall₂ R items values) :
    (∀ item ∈ items, ∀ value ∈ values, R item value → S item value) → List.Forall₂ S items values := by
  induction related with
  | nil => exact fun _ => .nil
  | cons here _ ih =>
    intro each
    refine .cons (each _ List.mem_cons_self _ List.mem_cons_self here) (ih fun item member value inside => ?_)
    exact each item (List.mem_cons_of_mem _ member) value (List.mem_cons_of_mem _ inside)

theorem exists_value_of_forall₂ {α β : Type} {R : α → β → Prop} {items : List α} {values : List β}
    (related : List.Forall₂ R items values) {item : α} : item ∈ items → ∃ value ∈ values, R item value := by
  induction related with
  | nil => exact fun member => absurd member List.not_mem_nil
  | cons here _ ih =>
    intro member
    rcases List.mem_cons.mp member with rfl | member
    · exact ⟨_, List.mem_cons_self, here⟩
    · obtain ⟨value, inside, holds⟩ := ih member
      exact ⟨value, List.mem_cons_of_mem _ inside, holds⟩

theorem forall₂_append_left {α β : Type} {R : α → β → Prop} {front back : List α} : ∀ {values : List β},
    List.Forall₂ R (front ++ back) values →
      ∃ values' values'', values = values' ++ values'' ∧ List.Forall₂ R front values' ∧ List.Forall₂ R back values'' := by
  induction front with
  | nil => exact fun {values} related => ⟨[], values, rfl, .nil, related⟩
  | cons item rest ih =>
    intro values related
    rw [List.cons_append, List.forall₂_cons_left_iff] at related
    obtain ⟨value, later, here, others, rfl⟩ := related
    obtain ⟨values', values'', rfl, first, second⟩ := ih others
    exact ⟨value :: values', values'', rfl, .cons here first, second⟩

/-! ### Trees that fill a query -/

section Filling

mutual

/-- **The tree is the query with its variables and ranges filled**: a named variable stands for a tree that `holds` for
its name, one without a name for any tree, a range for a number within its bounds that has no child nodes, and a constant
for itself. -/
def Fills (D : Doubles) (holds : Str → CmmlToken → Prop) : CmmlToken → CmmlToken → Prop
  | .mk tag attributes text children, tree =>
    let query := CmmlToken.mk tag attributes text children
    match query.getType with
    | .var => query.getVarName ≠ [] → holds query.getVarName tree
    | .range => tree.getChildNodes = [] ∧ numberInRange D (query.getRangeBounds D) tree.getMeaning = true
    | .constant => query.symbol = tree.symbol ∧ FillAll D holds children tree.getChildNodes

/-- Trees one by one. -/
def FillAll (D : Doubles) (holds : Str → CmmlToken → Prop) : List CmmlToken → List CmmlToken → Prop
  | [], trees => trees = []
  | query :: rest, trees => ∃ tree others, trees = tree :: others ∧ Fills D holds query tree ∧ FillAll D holds rest others

end

variable {holds holds' : Str → CmmlToken → Prop} {query tree : CmmlToken}

theorem fills_var (isVar : query.getType = .var) :
    Fills D holds query tree ↔ (query.getVarName ≠ [] → holds query.getVarName tree) := by
  cases query with
  | mk tag attributes text children =>
    rw [Fills]
    simp only [isVar]

theorem fills_range (isRange : query.getType = .range) : Fills D holds query tree ↔
    tree.getChildNodes = [] ∧ numberInRange D (query.getRangeBounds D) tree.getMeaning = true := by
  cases query with
  | mk tag attributes text children =>
    rw [Fills]
    simp only [isRange]

theorem fills_constant (constant : query.getType = .constant) : Fills D holds query tree ↔
    query.symbol = tree.symbol ∧ FillAll D holds query.getChildNodes tree.getChildNodes := by
  cases query with
  | mk tag attributes text children =>
    rw [Fills, getChildNodes_mk]
    simp only [constant]

theorem fillAll_nil {trees : List CmmlToken} : FillAll D holds [] trees ↔ trees = [] := by rw [FillAll]

theorem fillAll_cons {queries others : List CmmlToken} : FillAll D holds (query :: queries) (tree :: others) ↔
    Fills D holds query tree ∧ FillAll D holds queries others := by
  rw [FillAll]
  constructor
  · rintro ⟨first, rest, same, fills⟩
    obtain ⟨rfl, rfl⟩ := List.cons.inj same
    exact fills
  · exact fun fills => ⟨tree, others, rfl, fills⟩

theorem not_fillAll_cons_nil {queries : List CmmlToken} : ¬FillAll D holds (query :: queries) [] := by
  rw [FillAll]
  rintro ⟨tree, others, same, -⟩
  cases same

/-- Trees that fill queries one by one. -/
theorem fillAll_iff {queries : List CmmlToken} : ∀ {trees : List CmmlToken},
    FillAll D holds queries trees ↔ List.Forall₂ (Fills D holds) queries trees := by
  induction queries with
  | nil =>
    intro trees
    rw [fillAll_nil, List.forall₂_nil_left_iff]
  | cons query rest ih =>
    intro trees
    cases trees with
    | nil => exact iff_of_false not_fillAll_cons_nil fun related => by cases related
    | cons tree others => rw [fillAll_cons, List.forall₂_cons, ih]

/-- What holds of the trees that stand for variables is all that matters. -/
theorem Fills.imp {query : CmmlToken} : ∀ {tree : CmmlToken}, Fills D holds query tree →
    (∀ node ∈ subtrees query, node.getType = .var → node.getVarName ≠ [] → ∀ inner ∈ subtrees tree,
      holds node.getVarName inner → holds' node.getVarName inner) → Fills D holds' query tree := by
  induction query with
  | mk tag attributes text children ih =>
    intro tree fills grows
    cases type : (CmmlToken.mk tag attributes text children).getType with
    | var =>
      rw [fills_var type] at fills ⊢
      exact fun named => grows _ (mem_subtrees_self _) type named tree (mem_subtrees_self _) (fills named)
    | range =>
      rw [fills_range type] at fills ⊢
      exact fills
    | constant =>
      rw [fills_constant type, fillAll_iff, getChildNodes_mk] at fills ⊢
      refine ⟨fills.1, forall₂_imp_of_mem fills.2 fun child member inner inside fit => ?_⟩
      refine ih child member fit fun node below isVar named node' below' => ?_
      exact grows node (mem_subtrees_of_child member below) isVar named node' (mem_subtrees_of_child inside below')

/-- The constants of a query that a tree fills occur in the tree. -/
theorem Fills.exists_symbol {query : CmmlToken} : ∀ {tree : CmmlToken}, Fills D holds query tree →
    (∀ node ∈ subtrees query, node.getType ≠ .constant → node.getChildNodes = []) →
    ∀ node ∈ subtrees query, node.getType = .constant → node.symbol ∈ symbols tree := by
  induction query with
  | mk tag attributes text children ih =>
    intro tree fills bare node member constant
    rw [subtrees_eq, List.mem_cons] at member
    cases type : (CmmlToken.mk tag attributes text children).getType with
    | constant =>
      rw [fills_constant type, fillAll_iff, getChildNodes_mk] at fills
      rcases member with rfl | below
      · rw [fills.1]
        exact List.mem_map_of_mem (mem_subtrees_self tree)
      · obtain ⟨child, inside, below⟩ := List.mem_flatMap.mp below
        obtain ⟨inner, among, fit⟩ := exists_value_of_forall₂ fills.2 inside
        have found := ih child inside fit (fun other under => bare other (mem_subtrees_of_child inside under)) node below
          constant
        rw [symbols_eq]
        exact List.mem_cons_of_mem _ (List.mem_flatMap.mpr ⟨inner, among, found⟩)
    | var =>
      have childless := bare _ (mem_subtrees_self _) (by rw [type]; decide)
      rw [childless, List.flatMap_nil, or_iff_left List.not_mem_nil] at member
      rw [member, type] at constant
      cases constant
    | range =>
      have childless := bare _ (mem_subtrees_self _) (by rw [type]; decide)
      rw [childless, List.flatMap_nil, or_iff_left List.not_mem_nil] at member
      rw [member, type] at constant
      cases constant

end Filling

/-- **The tree answers the query**: every name can be given a tree such that the query becomes the tree. Trees are
compared by their symbols. -/
def AnswersQuery (D : Doubles) (query tree : CmmlToken) : Prop :=
  ∃ assignment : Str → CmmlToken, Fills D (fun name inner => symbols (assignment name) = symbols inner) query tree

/-! ### Tokens and nodes -/

/-- There are ids for all variables and ranges, in the blocks that the search takes them from. -/
structure OwnIds (kinds : List NodeKind) : Prop where
  fewNames : (varNames kinds).toFinset.card ≤ 31
  fewAnonymous : kinds.count .anonymous ≤ 31
  fewRanges : kinds.count .range ≤ 32

theorem OwnIds.enough {kinds : List NodeKind} (own : OwnIds kinds) : EnoughIds kinds :=
  ⟨own.fewNames.trans (by decide), own.fewAnonymous.trans (by decide), own.fewRanges⟩

theorem OwnIds.bounds {kinds : List NodeKind} (own : OwnIds kinds) {keys : List Str} (roomy : Roomy keys) :
    Bounds .query keys kinds :=
  ⟨by rw [length_concatAll]; exact own.fewNames, own.fewAnonymous, own.fewRanges, lt_trans roomy (by decide)⟩

/-- **What a token says of the node it was written for**: which hole it is, or which constant. -/
def Stands (keys names : List Str) (rangeBounds : List (Nat × D.Carrier × D.Carrier)) (node : CmmlToken)
    (token : EncodedToken) : Prop :=
  match node.getType with
  | .var => token.role = if node.getVarName = [] then .anonymous else .named (1 + numberOf names node.getVarName)
  | .range => ∃ id, token.role = .restricted id ∧ rangeBounds.lookup id = some (node.getRangeBounds D)
  | .constant => token.role = .constant ∧ token = code keys node.symbol ∧ node.getMeaning ∈ keys ∧
      node.getChildNodes.length ≤ encTokMaxArity

section Roles

variable {token : EncodedToken}

theorem role_of_named (low : token.id ≤ 32) : token.role = .named token.id := by
  have isVar : token.isVar = true := by rw [isVar_eq, decide_eq_true_iff]; omega
  have named : token.isAnonVar = false := by
    rw [isAnonVar_eq]
    simp only [Bool.or_eq_false_iff, Bool.and_eq_false_iff, decide_eq_false_iff_not]
    omega
  rw [EncodedToken.role, isVar, named]
  rfl

theorem role_of_anonymous (low : 33 ≤ token.id) (high : token.id < 64) : token.role = .anonymous := by
  have isVar : token.isVar = true := by rw [isVar_eq, decide_eq_true_iff]; omega
  have anonymous : token.isAnonVar = true := by
    rw [isAnonVar_eq]
    simp only [Bool.or_eq_true, Bool.and_eq_true, decide_eq_true_iff]
    omega
  rw [EncodedToken.role, isVar, anonymous]
  rfl

theorem role_of_constant (constant : token.IsConstant) : token.role = .constant := by
  rw [EncodedToken.role, constant.isVar_eq, constant.isRange_eq]
  rfl

theorem isConstant_code {keys : List Str} (roomy : Roomy keys) {symbol : Str × Nat} (member : symbol.1 ∈ keys) :
    (code keys symbol).IsConstant := by
  rw [EncodedToken.IsConstant, show symbol = (symbol.1, symbol.2) from rfl, roomy.code_id member]
  exact Nat.le_add_right _ _

end Roles

section Encoding

variable {keys : List Str} {round : Round D}

/-- One node: whether the value that is returned stays 0. -/
theorem rv_encodeNode {front : List NodeKind} {located : Located} (after : After .query keys front round)
    (roomy : Roomy keys) (goesOn : accepted located = true) :
    (encodeNode .query ⟨false⟩ round located).rv = 0 ↔
      round.rv = 0 ∧ (located.token.getType = .constant → located.token.getMeaning ∈ keys) := by
  cases type : located.token.getType with
  | var =>
    have isVar : located.token.isVar = true := by rw [CmmlToken.isVar, type]; rfl
    have same : (encodeNode .query ⟨false⟩ round located).rv = round.rv := by
      unfold encodeNode encodeToken
      simp only [isVar, if_true]
      split <;> rfl
    simp [same]
  | range =>
    have isRange : located.token.isRange = true := by rw [CmmlToken.isRange, type]; rfl
    rw [encodeNode_range .query ⟨false⟩ round isRange]
    simp
  | constant =>
    have narrow : located.token.getArity ≤ encTokMaxArity := (IndexBuilder.accepted_iff located).mp goesOn type
    have node := @encodeNode_plain D .query ⟨false⟩ round located ⟨type, narrow⟩
    simp only [constantName, Bool.false_and, Bool.false_eq_true, if_false] at node
    have id := getConstantEncoding_id after.dictionary located.token.getMeaning
    rw [keysAfter, constantId] at id
    rw [node]
    simp only [id, forall_const]
    by_cases member : located.token.getMeaning ∈ keys
    · have found : (constantIdMin + numberOf keys located.token.getMeaning) % 2 ^ 24 ≠ keyNotFound :=
        @ids_ne_keyNotFound keys [located.token.getMeaning] roomy (by simpa using member) _ (by simp)
      rw [if_pos member, if_neg found]
      exact (and_iff_left member).symm
    · rw [if_neg member, if_pos (show keyNotFound % 2 ^ 24 = keyNotFound from rfl)]
      exact iff_of_false (by decide) fun both => member both.2

/-- All nodes. -/
theorem rv_foldl_iff (roomy : Roomy keys) (nodes : List Located) : ∀ {front : List NodeKind} {round : Round D},
    After .query keys front round → (∀ located ∈ nodes, accepted located = true) →
    Bounds .query keys (front ++ kindsOf nodes) →
    ((nodes.foldl (encodeNode .query ⟨false⟩) round).rv = 0 ↔
      round.rv = 0 ∧ ∀ located ∈ nodes, located.token.getType = .constant → located.token.getMeaning ∈ keys) := by
  induction nodes with
  | nil => intro front round _ _ _; simp
  | cons located rest ih =>
    intro front round after all bounds
    have goesOn := all located List.mem_cons_self
    rw [append_kindsOf_cons] at bounds
    rw [List.foldl_cons, ih (after.next goesOn bounds.front) (fun other member => all other (List.mem_cons_of_mem _ member))
      bounds, rv_encodeNode after roomy goesOn, List.forall_mem_cons, and_assoc]

variable {self : ExpressionEncoder} {query : CmmlToken}

theorem accepted_all_iff : (∀ located ∈ foreachSubexpression query, accepted located = true) ↔
    ∀ node ∈ subtrees query, node.getType = .constant → node.getArity ≤ encTokMaxArity := by
  rw [← @forall_dfs_root query fun node => node.getType = .constant → node.getArity ≤ encTokMaxArity]
  exact forall₂_congr fun located _ => IndexBuilder.accepted_iff located

theorem bounds_query (own : OwnIds ((subtrees query).map nodeKind)) (roomy : Roomy keys) :
    Bounds .query keys (kindsOf (foreachSubexpression query)) := by
  have kinds : kindsOf (foreachSubexpression query) = (subtrees query).map nodeKind := by
    rw [← map_token_dfs_root, List.map_map]
    rfl
  rw [kinds]
  exact own.bounds roomy

/-- **When a query is accepted**: all of its constants are known and have few enough child nodes. -/
theorem encode_known_iff (numbered : self.meaningDictionary.Numbered keys) (roomy : Roomy keys)
    (own : OwnIds ((subtrees query).map nodeKind)) (info : ExpressionInfo D) :
    (encode .query self ⟨false⟩ (.root query) (some info)).2 = 0 ↔ ∀ node ∈ subtrees query, node.getType = .constant →
      node.getMeaning ∈ keys ∧ node.getArity ≤ encTokMaxArity := by
  have start := after_startRound .query numbered (some info)
  rw [encode, encodeLoop_eq]
  by_cases all : ∀ located ∈ foreachSubexpression query, accepted located = true
  · have whole : (foreachSubexpression query).takeWhile accepted = foreachSubexpression query :=
      List.takeWhile_eq_self_iff.mpr all
    rw [show dfs [Located.root query] = foreachSubexpression query from rfl, whole, if_pos (List.all_eq_true.mpr all),
      rv_foldl_iff roomy _ start all (bounds_query own roomy)]
    rw [accepted_all_iff] at all
    constructor
    · rintro ⟨-, known⟩ node member constant
      exact ⟨(@forall_dfs_root query fun node => node.getType = .constant → node.getMeaning ∈ keys).mp known node member
        constant, all node member constant⟩
    · exact fun known => ⟨rfl, (@forall_dfs_root query fun node => node.getType = .constant → node.getMeaning ∈ keys).mpr
        fun node member constant => (known node member constant).1⟩
  · rw [show dfs [Located.root query] = foreachSubexpression query from rfl, if_neg fun passed => all (List.all_eq_true.mp passed)]
    refine iff_of_false (show ¬((-1 : Int) = 0) by decide) fun known => all ?_
    exact accepted_all_iff.mpr fun node member constant => (known node member constant).2

/-- The tokens in closed form stand for their nodes. -/
theorem stands_assigned {total : List Located} (roomy : Roomy keys) (bounds : Bounds .query keys (kindsOf total))
    {rangeBounds : List (Nat × D.Carrier × D.Carrier)}
    (noted : rangeBounds = (rangesOf total).zipIdx.map fun range => (rangeId range.2, range.1.getRangeBounds D))
    (back : List Located) : ∀ {front : List Located}, total = front ++ back →
    (∀ located ∈ back, located.token.getType = .constant → located.token.getMeaning ∈ keys ∧
      located.token.getChildNodes.length ≤ encTokMaxArity) →
    List.Forall₂ (fun located token =>
      Stands keys (concatAll [] (varNames (kindsOf total))) rangeBounds located.token token) back
        (assigned .query keys (kindsOf front) back) := by
  induction back with
  | nil => exact fun _ _ => .nil
  | cons located rest ih =>
    intro front split known
    rw [List.forall_mem_cons] at known
    have kinds : kindsOf (front ++ [located]) = kindsOf front ++ [nodeKind located.token] := kindsOf_concat front located
    have later := @ih (front ++ [located]) (by rw [split, List.append_assoc, List.singleton_append]) known.2
    rw [kinds] at later
    refine .cons ?_ later
    have placed : Placed .query keys (kindsOf total) (kindsOf front)
        (located, encodedToken (idAfter .query keys (kindsOf front) (nodeKind located.token)) (arityOf located.token)) := by
      refine ⟨?_, rfl⟩
      rw [split, ← kinds]
      exact (List.prefix_append_right_inj front).mpr (List.prefix_append [located] rest) |>.map _
    generalize written : encodedToken (idAfter .query keys (kindsOf front) (nodeKind located.token))
      (arityOf located.token) = token at placed ⊢
    rw [Stands]
    rcases nodeKind_cases located.token with ⟨isVar, named, kind⟩ | ⟨isVar, anonymous, kind⟩ | ⟨isRange, kind⟩ |
      ⟨constant, kind⟩
    · have id := placed.named_id kind bounds
      have number := numberOf_le (name_mem_of_placed placed kind)
      have few := bounds.fewNames
      have id : token.id = 1 + numberOf (concatAll [] (varNames (kindsOf total))) located.token.getVarName := id
      rw [isVar]
      simp only [if_neg named]
      rw [role_of_named (by omega), id]
    · obtain ⟨id, few⟩ := placed.anonymous_id kind bounds
      have id : token.id = 33 + (kindsOf front).count .anonymous := id
      rw [isVar]
      simp only [if_pos anonymous]
      exact role_of_anonymous (by omega) (by omega)
    · obtain ⟨-, few⟩ := placed.range_id kind bounds
      have ranges : ∀ nodes : List Located, (kindsOf nodes).count .range = (rangesOf nodes).length := by
        intro nodes
        rw [kindsOf, List.count_eq_countP, List.countP_map, rangesOf, ← List.countP_eq_length_filter, List.countP_map]
        refine List.countP_congr fun other _ => ?_
        rcases nodeKind_cases other.token with ⟨type, -, same⟩ | ⟨type, -, same⟩ | ⟨type, same⟩ | ⟨type, same⟩ <;>
          simp [same, CmmlToken.isRange, type]
      rw [ranges] at few
      have small : (rangesOf front).length + rangeIdMin < 2 ^ 24 := by rw [rangeIdMin]; omega
      have role := role_rangeId small
      rw [if_pos few] at role
      have token_eq : token = encodedToken (rangeIdMin + (rangesOf front).length) 1 := by
        rw [← written, kind, idAfter, ranges, arityOf, isRange]
      have split_ranges : rangesOf total = rangesOf front ++ located.token :: rangesOf rest := by
        have test : located.token.isRange = true := by rw [CmmlToken.isRange, isRange]; rfl
        rw [split, rangesOf, List.map_append, List.filter_append, List.map_cons, List.filter_cons_of_pos test]
        rfl
      rw [isRange]
      refine ⟨_, token_eq ▸ role, ?_⟩
      rw [noted, split_ranges, ← rangeId_eq small]
      exact lookup_rangeId small
    · obtain ⟨member, narrow⟩ := known.1 constant
      have token_eq : token = code keys located.token.symbol := by
        have arity : located.token.getArity = located.token.getChildNodes.length :=
          Nat.mod_eq_of_lt (lt_of_le_of_lt narrow (by decide))
        rw [← written, kind, idAfter, keysAfter, constantId, if_pos member, arityOf, constant, code, symbol, arity]
      rw [constant]
      exact ⟨token_eq ▸ role_of_constant (isConstant_code roomy member), token_eq, member, narrow⟩

/-- The names of the variables of a query, in the order of their numbers. -/
def namesOfQuery (query : CmmlToken) : List Str := concatAll [] (varNames ((subtrees query).map nodeKind))

theorem mem_namesOfQuery {node : CmmlToken} (member : node ∈ subtrees query) (isVar : node.getType = .var)
    (named : node.getVarName ≠ []) : node.getVarName ∈ namesOfQuery query := by
  refine (mem_concatAll _).mpr (.inr (List.mem_filterMap.mpr ⟨_, List.mem_map_of_mem member, ?_⟩))
  rw [nodeKind, isVar]
  simp only [if_neg named]
  rfl

/-- **The tokens of an accepted query stand for its nodes.** -/
theorem encode_stands (numbered : self.meaningDictionary.Numbered keys) (roomy : Roomy keys) (bare : Bare query)
    (own : OwnIds ((subtrees query).map nodeKind))
    (ok : (encode .query self ⟨false⟩ (.root query) (some (⟨[], [], []⟩ : ExpressionInfo D))).2 = 0) :
    ∃ info, (encode .query self ⟨false⟩ (.root query) (some (⟨[], [], []⟩ : ExpressionInfo D))).1.expressionInfo = some info ∧
      List.Forall₂ (Stands keys (namesOfQuery query) info.rangeBounds) (subtrees query)
        (encode .query self ⟨false⟩ (.root query) (some (⟨[], [], []⟩ : ExpressionInfo D))).1.encodedFormula := by
  have known := (encode_known_iff numbered roomy own _).mp ok
  have all : ∀ located ∈ foreachSubexpression query, accepted located = true :=
    accepted_all_iff.mpr fun node member constant => (known node member constant).2
  have whole : (foreachSubexpression query).takeWhile accepted = foreachSubexpression query :=
    List.takeWhile_eq_self_iff.mpr all
  have bounds := @bounds_query keys query own roomy
  have start : Noted [] (self.startRound (some (⟨[], [], []⟩ : ExpressionInfo D))) := ⟨rfl, rfl, _, rfl, rfl⟩
  have noted := start.foldl .query ⟨false⟩ (foreachSubexpression query) all
  rw [List.nil_append] at noted
  obtain ⟨info, given, rangeBounds⟩ := noted.bounds
  have formula : (encode .query self ⟨false⟩ (.root query) (some (⟨[], [], []⟩ : ExpressionInfo D))).1.encodedFormula =
      assigned .query keys [] (foreachSubexpression query) := by
    have closed := @encode_assigned D self keys .query numbered query (some (⟨[], [], []⟩ : ExpressionInfo D))
      (by rw [whole]; exact bounds)
    rwa [whole] at closed
  refine ⟨info, ?_, ?_⟩
  · rw [encode, show dfs [Located.root query] = foreachSubexpression query from rfl, encodeLoop_all .query ⟨false⟩ all]
    exact given
  · have stands := @stands_assigned D keys (foreachSubexpression query) roomy bounds _ rangeBounds
      (foreachSubexpression query) [] rfl (forall_dfs_root (P := fun node => node.getType = .constant →
        node.getMeaning ∈ keys ∧ node.getChildNodes.length ≤ encTokMaxArity) |>.mpr fun node member constant => by
          obtain ⟨inside, narrow⟩ := known node member constant
          refine ⟨inside, ?_⟩
          have shape := bare node member
          rw [if_pos constant] at shape
          rwa [getArity, Nat.mod_eq_of_lt shape] at narrow)
    have names : concatAll [] (varNames (kindsOf (foreachSubexpression query))) = namesOfQuery query := by
      rw [namesOfQuery, ← map_token_dfs_root, List.map_map]
      rfl
    rw [names] at stands
    rw [formula, ← map_token_dfs_root, List.forall₂_map_left_iff]
    exact stands

end Encoding

/-! ### Words and trees -/

section Words

variable {keys names : List Str} {context : SearchContext D}

/-- The decoder of a search reads the ids of the meanings. -/
def DecodesMeanings (context : SearchContext D) (keys : List Str) : Prop :=
  ∀ meaning ∈ keys, ∀ arity, ∃ decoder, context.decoder = some decoder ∧
    decoder.getMeaning (code keys (meaning, arity)).id = some meaning

/-- What a substitution says of the names of a query. -/
def HoldsFor (keys names : List Str) (substitution : Nat → EncodedFormula) (name : Str) (tree : CmmlToken) : Prop :=
  substitution (1 + numberOf names name) = formulaOf keys tree

/-- **The encoded query reads the formula of a tree off a word exactly when the tree fills the query.** -/
def ReadsOff (context : SearchContext D) (keys names : List Str) (substitution : Nat → EncodedFormula)
    (query : CmmlToken) : Prop :=
  ∀ (tree : CmmlToken) (tokens pattern word : EncodedFormula),
    List.Forall₂ (Stands keys names context.rangeBounds) (subtrees query) tokens → KnownTo keys tree →
      (Instance EncodedToken.arity EncodedToken.role (accepts context) substitution (tokens ++ pattern)
          (formulaOf keys tree ++ word) ↔
        Fills D (HoldsFor keys names substitution) query tree ∧
          Instance EncodedToken.arity EncodedToken.role (accepts context) substitution pattern word)

variable {substitution : Nat → EncodedFormula}

theorem KnownTo.child {tree child : CmmlToken} (knownTo : KnownTo keys tree) (member : child ∈ tree.getChildNodes) :
    KnownTo keys child := knownTo.subtree (mem_subtrees_of_child member (mem_subtrees_self child))

theorem arity_code {tree : CmmlToken} (knownTo : KnownTo keys tree) :
    (code keys tree.symbol).arity = tree.getChildNodes.length := by
  have narrow := (knownTo _ (List.mem_map_of_mem (mem_subtrees_self tree))).2
  exact Nat.mod_eq_of_lt (lt_of_le_of_lt narrow (by decide))

/-- What a range accepts. -/
theorem accepts_code {tree : CmmlToken} (knownTo : KnownTo keys tree) (decodes : DecodesMeanings context keys) {id : Nat}
    {limits : D.Carrier × D.Carrier} (found : context.rangeBounds.lookup id = some limits) :
    accepts context id (code keys tree.symbol) = true ↔
      tree.getChildNodes = [] ∧ numberInRange D limits tree.getMeaning = true := by
  have arity := arity_code knownTo
  obtain ⟨decoder, given, known⟩ := decodes tree.getMeaning
    (knownTo _ (List.mem_map_of_mem (mem_subtrees_self tree))).1 tree.getChildNodes.length
  rw [accepts, found, Option.bind_some]
  by_cases childless : tree.getChildNodes = []
  · rw [childless, List.length_nil] at arity
    rw [given, symbol, validSubst_of_meaning D limits known arity, Option.getD_some, and_iff_right childless]
  · rw [validSubst_of_arity D limits (by rw [arity]; exact fun none => childless (List.eq_nil_of_length_eq_zero none))]
    exact iff_of_false (by decide) fun both => childless both.1

/-- Queries one after the other. -/
theorem readsOff_all {queries : List CmmlToken} (each : ∀ query ∈ queries, ReadsOff context keys names substitution query) :
    ∀ {trees : List CmmlToken} {tokens pattern word : EncodedFormula}, queries.length = trees.length →
    List.Forall₂ (Stands keys names context.rangeBounds) (queries.flatMap subtrees) tokens →
    (∀ tree ∈ trees, KnownTo keys tree) →
      (Instance EncodedToken.arity EncodedToken.role (accepts context) substitution (tokens ++ pattern)
          (trees.flatMap (formulaOf keys) ++ word) ↔
        FillAll D (HoldsFor keys names substitution) queries trees ∧
          Instance EncodedToken.arity EncodedToken.role (accepts context) substitution pattern word) := by
  induction queries with
  | nil =>
    intro trees tokens pattern word lengths stands _
    rw [List.eq_nil_of_length_eq_zero lengths.symm, fillAll_nil]
    rw [List.flatMap_nil, List.forall₂_nil_left_iff] at stands
    rw [stands, List.flatMap_nil]
    exact (and_iff_right rfl).symm
  | cons query rest ih =>
    intro trees tokens pattern word lengths stands known
    cases trees with
    | nil => cases lengths
    | cons tree others =>
      rw [List.forall_mem_cons] at each known
      rw [List.flatMap_cons] at stands
      obtain ⟨front, back, rfl, here, later⟩ := forall₂_append_left stands
      rw [List.flatMap_cons, List.append_assoc, List.append_assoc, each.1 tree front _ _ here known.1,
        ih each.2 (Nat.succ.inj lengths) later known.2, fillAll_cons, and_assoc]

/-- **Every query** with childless variables and ranges. -/
theorem readsOff (roomy : Roomy keys) (decodes : DecodesMeanings context keys) {query : CmmlToken} :
    (∀ node ∈ subtrees query, node.getType ≠ .constant → node.getChildNodes = []) →
      ReadsOff context keys names substitution query := by
  induction query with
  | mk tag attributes text children ih =>
    intro bare tree tokens pattern word stands knownTo
    rw [subtrees_eq, List.forall₂_cons_left_iff] at stands
    obtain ⟨token, later, here, below, rfl⟩ := stands
    rw [getChildNodes_mk] at below
    have childless : (CmmlToken.mk tag attributes text children).getType ≠ .constant → later = [] := by
      intro special
      have none := bare _ (mem_subtrees_self _) special
      rw [getChildNodes_mk] at none
      rw [none, List.flatMap_nil, List.forall₂_nil_left_iff] at below
      exact below
    rw [Stands] at here
    cases type : (CmmlToken.mk tag attributes text children).getType with
    | var =>
      simp only [type] at here
      rw [childless (by rw [type]; decide), fills_var type, List.singleton_append]
      by_cases anonymous : (CmmlToken.mk tag attributes text children).getVarName = []
      · rw [if_pos anonymous] at here
        rw [instance_anonymous here knownTo.closes, anonymous]
        exact (and_iff_right fun named => absurd rfl named).symm
      · rw [if_neg anonymous] at here
        rw [instance_named here knownTo.closes]
        exact and_congr_left fun _ => ⟨fun same _ => same, fun same => same anonymous⟩
    | range =>
      simp only [type] at here
      obtain ⟨id, role, found⟩ := here
      rw [childless (by rw [type]; decide), fills_range type, List.singleton_append, formulaOf_eq, List.cons_append,
        instance_restricted role, accepts_code knownTo decodes found, arity_code knownTo]
      constructor
      · rintro ⟨⟨-, none, inRange⟩, rest⟩
        rw [none] at rest
        exact ⟨⟨none, inRange⟩, rest⟩
      · rintro ⟨⟨none, inRange⟩, rest⟩
        rw [none]
        exact ⟨⟨rfl, rfl, inRange⟩, rest⟩
    | constant =>
      simp only [type] at here
      obtain ⟨role, rfl, member, narrow⟩ := here
      rw [fills_constant type, List.cons_append, formulaOf_eq, List.cons_append, instance_constant role, getChildNodes_mk,
        and_assoc]
      obtain ⟨member', narrow'⟩ := knownTo _ (List.mem_map_of_mem (mem_subtrees_self tree))
      have codes : code keys tree.symbol = code keys (CmmlToken.mk tag attributes text children).symbol ↔
          (CmmlToken.mk tag attributes text children).symbol = tree.symbol :=
        ⟨fun same => (roomy.code_injective member' member narrow' narrow same).symm, fun same => by rw [same]⟩
      rw [codes]
      refine and_congr_right fun same => ?_
      have lengths : children.length = tree.getChildNodes.length := congrArg Prod.snd same
      refine readsOff_all (fun child inside => ih child inside fun node under => ?_) lengths below
        fun child inside => KnownTo.child knownTo inside
      exact bare node (mem_subtrees_of_child inside under)

/-- The formula of a tree under one substitution. -/
theorem instance_iff (roomy : Roomy keys) (decodes : DecodesMeanings context keys) {query tree : CmmlToken}
    {tokens : EncodedFormula} (bare : ∀ node ∈ subtrees query, node.getType ≠ .constant → node.getChildNodes = [])
    (stands : List.Forall₂ (Stands keys names context.rangeBounds) (subtrees query) tokens)
    (knownTo : KnownTo keys tree) :
    Instance EncodedToken.arity EncodedToken.role (accepts context) substitution tokens (formulaOf keys tree) ↔
      Fills D (HoldsFor keys names substitution) query tree := by
  have whole := @readsOff D keys names context substitution roomy decodes query bare tree tokens [] [] stands knownTo
  rw [List.append_nil, List.append_nil] at whole
  exact whole.trans (and_iff_left .nil)

open Classical in
/-- **The formulas that match** the encoded query are those of the trees that answer the query. -/
theorem exists_instance_iff (roomy : Roomy keys) (decodes : DecodesMeanings context keys) {query tree : CmmlToken}
    {tokens : EncodedFormula} (bare : ∀ node ∈ subtrees query, node.getType ≠ .constant → node.getChildNodes = [])
    (stands : List.Forall₂ (Stands keys (namesOfQuery query) context.rangeBounds) (subtrees query) tokens)
    (knownTo : KnownTo keys tree) :
    (∃ substitution, Instance EncodedToken.arity EncodedToken.role (accepts context) substitution tokens
        (formulaOf keys tree)) ↔ AnswersQuery D query tree := by
  constructor
  · rintro ⟨substitution, inst⟩
    have fills := (instance_iff roomy decodes bare stands knownTo).mp inst
    -- a name is given a subtree of the tree with the formula that it stands for
    refine ⟨fun name => if some : ∃ inner ∈ subtrees tree, HoldsFor keys (namesOfQuery query) substitution name inner then
      some.choose else tree, fills.imp fun node _ _ _ inner inside holds => ?_⟩
    have some : ∃ inner ∈ subtrees tree, HoldsFor keys (namesOfQuery query) substitution node.getVarName inner :=
      ⟨inner, inside, holds⟩
    show symbols (dite _ _ _) = _
    rw [dif_pos some]
    obtain ⟨among, holds'⟩ := some.choose_spec
    exact (formulaOf_eq_iff roomy (knownTo.subtree among) (knownTo.subtree inside)).mp (holds'.symm.trans holds)
  · rintro ⟨assignment, fills⟩
    -- the number of a name stands for the formula of what the name is given
    let substitution : Nat → EncodedFormula := fun id =>
      if some : ∃ name ∈ namesOfQuery query, 1 + numberOf (namesOfQuery query) name = id then
        formulaOf keys (assignment some.choose) else []
    have numbered : ∀ name ∈ namesOfQuery query,
        substitution (1 + numberOf (namesOfQuery query) name) = formulaOf keys (assignment name) := by
      intro name member
      have some : ∃ other ∈ namesOfQuery query,
          1 + numberOf (namesOfQuery query) other = 1 + numberOf (namesOfQuery query) name := ⟨name, member, rfl⟩
      show (if some : _ then _ else _) = _
      rw [dif_pos some]
      obtain ⟨among, same⟩ := some.choose_spec
      rw [numberOf_inj among (Nat.add_left_cancel same)]
    refine ⟨substitution, (instance_iff roomy decodes bare stands knownTo).mpr ?_⟩
    refine fills.imp fun node member isVar named inner inside same => ?_
    rw [HoldsFor, numbered _ (mem_namesOfQuery member isVar named), formulaOf, same, formulaOf]

end Words

end QueryTrees

end MathWebSearch
