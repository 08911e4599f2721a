/-
**Where the variables of a query are** (`CmmlToken::getXpath`, `CmmlToken::getXpathRelative`, `QueryEncoder::encode`).

An answer comes with the path of a node, and a query with the paths of its variables below its root. The response joins
the two.

* `resolve` — the node that a path of child numbers leads to.
* `resolve_append` — a path behind another one: first to the node, and from there on.
* `encode_qvars` — the names and the paths of the variables that `encode` reports.
* `Fills.resolve` — **the joined path leads to the subtree that stands for the variable.**
-/

import MathWebSearch.Query.QueryTrees
import MathWebSearch.Types.Decimal

namespace MathWebSearch

open CmmlToken ExpressionEncoder

namespace CmmlToken

/-! ### Paths -/

/-- The node at child numbers, which are counted from one. -/
def descend : CmmlToken → List Nat → Option CmmlToken
  | token, [] => some token
  | _, 0 :: _ => none
  | token, (number + 1) :: rest => token.getChildNodes[number]?.bind fun child => descend child rest

/-- The child numbers of a path, with at most so many steps. -/
def xpathStepsWithin : Nat → Str → Option (List Nat)
  | _, [] => some []
  | limit + 1, '/' :: '*' :: '[' :: text => do
    let (number, rest) ← readNumber text
    if rest.head? = some ']' then (xpathStepsWithin limit rest.tail).map (number :: ·) else none
  | _, _ => none

/-- The child numbers of a path. -/
def xpathSteps (path : Str) : Option (List Nat) := xpathStepsWithin path.length path

/-- **The node that a path leads to**: its first step is the root. -/
def resolve (tree : CmmlToken) (path : Str) : Option CmmlToken :=
  (xpathSteps path).bind fun steps => if steps.head? = some 1 then tree.descend steps.tail else none

theorem descend_append (front back : List Nat) : ∀ token : CmmlToken,
    token.descend (front ++ back) = (token.descend front).bind fun inner => inner.descend back := by
  induction front with
  | nil =>
    intro token
    rw [List.nil_append, descend, Option.bind_some]
  | cons number rest ih =>
    intro token
    cases number with
    | zero => rw [List.cons_append, descend, descend, Option.bind_none]
    | succ number =>
      rw [List.cons_append, descend, descend, Option.bind_assoc]
      exact Option.bind_congr fun child _ => ih child

/-- The text of a step. -/
def stepText (number : Nat) : Str := ['/', '*', '['] ++ toStr number ++ [']']

theorem xpathStepsWithin_eq (steps : List Nat) : ∀ {limit : Nat}, steps.length ≤ limit →
    xpathStepsWithin limit (steps.flatMap stepText) = some steps := by
  induction steps with
  | nil =>
    intro limit _
    rw [List.flatMap_nil, xpathStepsWithin]
  | cons number rest ih =>
    intro limit enough
    obtain ⟨limit, rfl⟩ : ∃ less, limit = less + 1 := ⟨limit - 1, by rw [List.length_cons] at enough; omega⟩
    have text : (number :: rest).flatMap stepText =
        '/' :: '*' :: '[' :: (toStr number ++ ']' :: rest.flatMap stepText) := by
      rw [List.flatMap_cons, stepText]
      simp
    have reads : readNumber (toStr number ++ ']' :: rest.flatMap stepText) =
        some (number, ']' :: rest.flatMap stepText) := readNumber_toStr number (by simp)
    rw [text, xpathStepsWithin, reads]
    show (xpathStepsWithin limit (rest.flatMap stepText)).map (number :: ·) = _
    rw [ih (Nat.le_of_succ_le_succ enough), Option.map_some]

theorem length_le_flatMap_stepText (steps : List Nat) : steps.length ≤ (steps.flatMap stepText).length := by
  induction steps with
  | nil => exact le_refl 0
  | cons number rest ih =>
    rw [List.flatMap_cons, List.length_append, stepText, List.length_cons]
    simp only [List.length_append, List.length_cons]
    omega

/-- **The steps are read back from their texts.** -/
theorem xpathSteps_eq (steps : List Nat) : xpathSteps (steps.flatMap stepText) = some steps :=
  xpathStepsWithin_eq steps (length_le_flatMap_stepText steps)

theorem Located.getXpath_eq (located : Located) :
    located.getXpath = (1 :: located.position.reverse).flatMap stepText := by
  rw [getXpath, List.flatMap_cons]
  rfl

theorem Located.getXpathRelative_eq (located : Located) :
    located.getXpathRelative = located.position.reverse.flatMap stepText := by
  rw [getXpathRelative, getXpath_eq, List.flatMap_cons]
  exact @List.drop_left' _ (stepText 1) _ _ rfl

/-- **The path of a node.** -/
theorem resolve_getXpath (tree : CmmlToken) (located : Located) :
    tree.resolve located.getXpath = tree.descend located.position.reverse := by
  rw [resolve, located.getXpath_eq, xpathSteps_eq]
  rfl

/-- **A path behind another one.** -/
theorem resolve_append (tree : CmmlToken) (located below : Located) :
    tree.resolve (located.getXpath ++ below.getXpathRelative) =
      (tree.descend located.position.reverse).bind fun inner => inner.descend below.position.reverse := by
  rw [resolve, located.getXpath_eq, below.getXpathRelative_eq, ← List.flatMap_append, xpathSteps_eq]
  exact descend_append _ _ tree

/-! ### Where nodes stand -/

theorem mem_childNodesFrom {parent : CmmlToken} {position : List Nat} {children : List CmmlToken} {located : Located} :
    ∀ {number : Nat}, located ∈ Located.childNodesFrom parent position children number →
      ∃ index, children[index]? = some located.token ∧ located.position = (number + index) :: position := by
  induction children with
  | nil => exact fun member => absurd member List.not_mem_nil
  | cons child rest ih =>
    intro number member
    rw [Located.childNodesFrom, List.mem_cons] at member
    rcases member with rfl | member
    · exact ⟨0, rfl, rfl⟩
    · obtain ⟨index, found, stands⟩ := ih member
      refine ⟨index + 1, found, ?_⟩
      rw [stands, Nat.add_right_comm, Nat.add_assoc]

/-- The nodes below a node stand below it. -/
theorem descend_of_mem_preorder (token : CmmlToken) : ∀ {parent : Option CmmlToken} {position : List Nat} {located : Located},
    located ∈ preorder token parent position →
      ∃ path, located.position.reverse = position.reverse ++ path ∧ token.descend path = some located.token := by
  induction token with
  | mk tag attributes text children ih =>
    intro parent position located member
    have whole := preorder_eq ⟨.mk tag attributes text children, parent, position⟩
    rw [whole, List.mem_cons, List.mem_flatMap] at member
    rcases member with rfl | ⟨child, inside, below⟩
    · exact ⟨[], (List.append_nil _).symm, by rw [descend]⟩
    · obtain ⟨index, found, stands⟩ := mem_childNodesFrom inside
      have found : children[index]? = some child.token := found
      obtain ⟨path, behind, leads⟩ := ih child.token (List.mem_of_getElem? found) below
      refine ⟨(index + 1) :: path, ?_, ?_⟩
      · rw [behind, stands, List.reverse_cons, List.append_assoc, List.singleton_append, Nat.add_comm]
      · rw [descend, getChildNodes_mk, found, Option.bind_some, leads]

/-- **Every node that is visited stands where its path leads.** -/
theorem descend_of_mem {tree : CmmlToken} {located : Located} (member : located ∈ foreachSubexpression tree) :
    tree.descend located.position.reverse = some located.token := by
  rw [foreachSubexpression_eq] at member
  obtain ⟨path, same, leads⟩ := descend_of_mem_preorder tree member
  rw [same]
  exact leads

end CmmlToken

namespace QueryTrees

variable {D : Doubles}

/-! ### The variables of a query -/

/-- The named variables among nodes. -/
def namedVars (nodes : List Located) : List Located :=
  nodes.filter fun located => located.token.isVar && !located.token.getVarName.isEmpty

theorem namedVars_concat (front : List Located) (located : Located) : namedVars (front ++ [located]) =
    namedVars front ++ if located.token.isVar && !located.token.getVarName.isEmpty then [located] else [] := by
  rw [namedVars, List.filter_append, ← namedVars, List.filter_singleton]
  cases located.token.isVar && !located.token.getVarName.isEmpty <;> rfl

/-- What `encode` reports of the variables among nodes. -/
structure Reports (front : List Located) (info : ExpressionInfo D) : Prop where
  names : info.qvarNames = (namedVars front).map fun located => located.token.getVarName
  xpaths : info.qvarXpaths = (namedVars front).map Located.getXpathRelative

/-- One node. -/
theorem Reports.next {front : List Located} {round : Round D} {info : ExpressionInfo D} (reports : Reports front info)
    (given : round.expressionInfo = some info) (kind : EncoderKind) (config : EncoderConfig) (located : Located) :
    ∃ info', (encodeNode kind config round located).expressionInfo = some info' ∧ Reports (front ++ [located]) info' := by
  have silent : (located.token.isVar && !located.token.getVarName.isEmpty) = false → Reports (front ++ [located]) info := by
    intro other
    have same : namedVars (front ++ [located]) = namedVars front := by
      rw [namedVars_concat, other]
      exact List.append_nil _
    exact ⟨same ▸ reports.names, same ▸ reports.xpaths⟩
  unfold encodeNode encodeToken
  simp only []
  split_ifs with isVar anonymous isRange wide
  · exact ⟨info, given, silent (by rw [anonymous]; simp)⟩
  · have named : (located.token.isVar && !located.token.getVarName.isEmpty) = true := by
      rw [isVar, Bool.true_and, Bool.not_eq_true', List.isEmpty_eq_false_iff]
      exact anonymous
    simp only [Option.getD_some, given, Option.map_some]
    refine ⟨_, rfl, ?_, ?_⟩
    · simp only [namedVars_concat, named, if_true, List.map_append, List.map_singleton, reports.names]
    · simp only [namedVars_concat, named, if_true, List.map_append, List.map_singleton, reports.xpaths]
  · simp only [Option.getD_some, given, Option.map_some]
    have kept := silent (by rw [Bool.eq_false_iff.mpr isVar]; rfl)
    exact ⟨_, rfl, kept.names, kept.xpaths⟩
  all_goals exact ⟨info, given, silent (by rw [Bool.eq_false_iff.mpr isVar]; rfl)⟩

/-- All nodes. -/
theorem Reports.foldl (kind : EncoderKind) (config : EncoderConfig) (nodes : List Located) :
    ∀ {front : List Located} {round : Round D} {info : ExpressionInfo D}, Reports front info →
      round.expressionInfo = some info →
      ∃ info', (nodes.foldl (encodeNode kind config) round).expressionInfo = some info' ∧ Reports (front ++ nodes) info' := by
  induction nodes with
  | nil => exact fun {front round info} reports given => ⟨info, given, (List.append_nil front).symm ▸ reports⟩
  | cons located rest ih =>
    intro front round info reports given
    obtain ⟨info', given', next⟩ := reports.next given kind config located
    obtain ⟨info'', given'', later⟩ := ih next given'
    rw [List.append_assoc, List.singleton_append] at later
    exact ⟨info'', given'', later⟩

/-- **The variables that are reported** of a query that is accepted. -/
theorem encode_reports {self : ExpressionEncoder} {query : CmmlToken} (kind : EncoderKind) (config : EncoderConfig)
    (all : ∀ located ∈ foreachSubexpression query, accepted located = true) :
    ∃ info, (encode kind self config (.root query) (some (⟨[], [], []⟩ : ExpressionInfo D))).1.expressionInfo = some info ∧
      Reports (foreachSubexpression query) info := by
  have start : Reports [] (⟨[], [], []⟩ : ExpressionInfo D) := ⟨rfl, rfl⟩
  obtain ⟨info, given, reports⟩ := @Reports.foldl D kind config (foreachSubexpression query) []
    (self.startRound (some ⟨[], [], []⟩)) _ start rfl
  refine ⟨info, ?_, reports⟩
  rw [encode, show dfs [Located.root query] = foreachSubexpression query from rfl, encodeLoop_all kind config all]
  exact given

/-! ### What stands for the variables -/

variable {holds : Str → CmmlToken → Prop}

/-- **Below a node of the query** stands what fills it. -/
theorem Fills.descend (path : List Nat) : ∀ {query tree node : CmmlToken}, Fills D holds query tree →
    (∀ inner ∈ subtrees query, inner.getType ≠ .constant → inner.getChildNodes = []) →
    query.descend path = some node → ∃ inner, tree.descend path = some inner ∧ Fills D holds node inner := by
  induction path with
  | nil =>
    intro query tree node fills _ leads
    rw [CmmlToken.descend, Option.some.injEq] at leads
    exact ⟨tree, by rw [CmmlToken.descend], leads ▸ fills⟩
  | cons number rest ih =>
    intro query tree node fills bare leads
    cases number with
    | zero =>
      rw [CmmlToken.descend] at leads
      cases leads
    | succ number =>
      rw [CmmlToken.descend] at leads ⊢
      obtain ⟨child, found, leads⟩ := Option.bind_eq_some_iff.mp leads
      have member := List.mem_of_getElem? found
      have constant : query.getType = .constant := by
        by_contra special
        rw [bare query (mem_subtrees_self query) special] at member
        exact List.not_mem_nil member
      obtain ⟨-, all⟩ := (fills_constant constant).mp fills
      have each := List.forall₂_iff_get.mp (fillAll_iff.mp all)
      obtain ⟨below, same⟩ := List.getElem?_eq_some_iff.mp found
      have below' : number < tree.getChildNodes.length := each.1 ▸ below
      have fit := each.2 number below below'
      rw [List.get_eq_getElem, List.get_eq_getElem, same] at fit
      obtain ⟨inner, leads', fills'⟩ := ih fit (fun node under => bare node (mem_subtrees_of_child member under)) leads
      exact ⟨inner, by rw [List.getElem?_eq_getElem below', Option.bind_some, leads'], fills'⟩

/-- **The joined path of a variable leads to the subtree that stands for it.** -/
theorem Fills.resolve {tree query : CmmlToken} {located var : Located} (visited : located ∈ foreachSubexpression tree)
    (fills : Fills D holds query located.token)
    (bare : ∀ inner ∈ subtrees query, inner.getType ≠ .constant → inner.getChildNodes = [])
    (among : var ∈ namedVars (foreachSubexpression query)) :
    ∃ inner, tree.resolve (located.getXpath ++ var.getXpathRelative) = some inner ∧ holds var.token.getVarName inner := by
  obtain ⟨member, named⟩ := List.mem_filter.mp among
  rw [Bool.and_eq_true, Bool.not_eq_true', List.isEmpty_eq_false_iff] at named
  obtain ⟨inner, leads, fit⟩ := fills.descend _ bare (descend_of_mem member)
  refine ⟨inner, by rw [resolve_append, descend_of_mem visited, Option.bind_some, leads], ?_⟩
  exact (fills_var (of_decide_eq_true named.1)).mp fit named.2

end QueryTrees

end MathWebSearch
