/-
**What the engine visits** (`query_engine_run` on an exported index without variables).

* `firstTerms` — the words along which `match_var_to_index` lets a variable grow: since it never goes on to
  the next entry, it takes the first child of every node, once for each child there is.
* `hits` — the words of the leaves the engine hands to its callback, in order and with repetitions.
* `Explores` — a run that hands the leaves of the given words to the callback, in order, up to the point
  where the callback ends it, and restores the context; or that does not fit the arrays.
* `processQueryToken_spec` — from every context that is ready, the engine explores `hits`; the depth of its
  recursion is bounded by the height of the index.
-/

import MathWebSearch.Library.PatternWord
import MathWebSearch.Query.Engine

namespace MathWebSearch

open PrefixCode PatternWord TmpIndexNode

namespace TmpIndexNode

mutual

/-- The words that close `opened` subterms below a node, as the engine walks them. -/
def firstTerms : TmpIndexNode → Nat → List (EncodedFormula × TmpIndexNode)
  | mk leaf children, 0 => [([], mk leaf children)]
  | mk _ children, opened + 1 => firstTermsOf children.length children opened

/-- The words that start with the first child, repeated. -/
def firstTermsOf : Nat → List (EncodedToken × TmpIndexNode) → Nat → List (EncodedFormula × TmpIndexNode)
  | _, [], _ => []
  | count, (token, node) :: _, opened =>
    (List.replicate count ((firstTerms node (opened + token.arity)).map fun term =>
      (token :: term.1, term.2))).flatten

end

@[simp] theorem firstTerms_zero (node : TmpIndexNode) : node.firstTerms 0 = [([], node)] := by
  cases node
  rw [firstTerms]

theorem firstTerms_succ {node next : TmpIndexNode} {token : EncodedToken}
    {rest : List (EncodedToken × TmpIndexNode)} (children : node.children = (token, next) :: rest) (opened : Nat) :
    node.firstTerms (opened + 1) = (List.replicate (rest.length + 1)
      ((next.firstTerms (opened + token.arity)).map fun term => (token :: term.1, term.2))).flatten := by
  cases node with
  | mk leaf entries =>
    rw [children_mk] at children
    subst children
    rw [firstTerms, firstTermsOf, List.length_cons]

end TmpIndexNode

namespace Engine

/-- The role of a query token: every id up to `VAR_ID_MAX` is a variable, known by its id. -/
def role (token : EncodedToken) : Role Nat Nat := if token.isVar then .named token.id else .constant

theorem role_of_var {token : EncodedToken} (isVar : token.isVar = true) : role token = .named token.id :=
  if_pos isVar

theorem role_of_constant {token : EncodedToken} (constant : token.isVar = false) : role token = .constant := by
  rw [role, constant]
  rfl

/-- The arity of a query token: a variable is one whole subterm. -/
abbrev queryArity (token : EncodedToken) : Nat := patternArity EncodedToken.arity role token

theorem queryArity_of_constant {token : EncodedToken} (constant : token.isVar = false) :
    queryArity token = token.arity := patternArity_constant (role_of_constant constant)

theorem queryArity_of_var {token : EncodedToken} (isVar : token.isVar = true) : queryArity token = 0 :=
  patternArity_hole (by rw [role_of_var isVar]; nofun)

/-- The words the solved variables stand for. -/
abbrev Env := Nat → Option EncodedFormula

/-- **The words the engine explores**, for a query, the solved variables and a node. -/
def hits : Env → EncodedFormula → TmpIndexNode → List EncodedFormula
  | _, [], _ => [[]]
  | env, token :: rest, node =>
    if token.isVar then
      match env token.id with
      | some word => (((walk word node).map (hits env rest)).getD []).map (word ++ ·)
      | none => (node.firstTerms 1).flatMap fun term =>
          (hits (Function.update env token.id (some term.1)) rest term.2).map (term.1 ++ ·)
    else (((node.child token).map (hits env rest)).getD []).map (token :: ·)

/-- The words of variables of a context. -/
def envOf (ctxt : QueryCtxt) : Env := fun id =>
  if (ctxt.vars id).solved then some (ctxt.vars id).tokens else none

theorem hits_constant (env : Env) {token : EncodedToken} (constant : token.isVar = false) (rest : EncodedFormula)
    (node : TmpIndexNode) :
    hits env (token :: rest) node = (((node.child token).map (hits env rest)).getD []).map (token :: ·) := by
  rw [hits, constant]
  rfl

/-- Constants in front of a query are walked along. -/
theorem hits_append_constants (env : Env) {word : EncodedFormula} (constants : ∀ token ∈ word, token.isVar = false)
    (rest : EncodedFormula) (node : TmpIndexNode) :
    hits env (word ++ rest) node = (((walk word node).map (hits env rest)).getD []).map (word ++ ·) := by
  induction word generalizing node with
  | nil => simp [walk]
  | cons token word ih =>
    rw [List.cons_append, hits_constant env (constants token List.mem_cons_self), walk]
    cases node.child token with
    | none => rfl
    | some next =>
      rw [Option.map_some, Option.getD_some, Option.bind_some,
        ih fun other member => constants other (List.mem_cons_of_mem _ member), List.map_map]
      rfl

/-! ### Exploring -/

/-- All the engine asks of a leaf: that its formula id fits the field. -/
def Numbered (leaf : TmpLeaf) : Prop := leaf.id < 2 ^ 32

/-- The address a word leads to in the image. -/
def reach (handle : IndexHandle) : EncodedFormula → Nat → Option Nat
  | [], address => some address
  | token :: rest, address => do
    let child ← indexAccessor.getChild handle address token
    let next ← child
    reach handle rest next

theorem reach_append (handle : IndexHandle) (first second : EncodedFormula) (address : Nat) :
    reach handle (first ++ second) address = (reach handle first address).bind (reach handle second) := by
  induction first generalizing address with
  | nil => rfl
  | cons token rest ih =>
    rw [List.cons_append, reach, reach]
    simp only [ih, Option.bind_eq_bind, Option.bind_assoc]

/-- A word leads to corresponding nodes in the index and in the image. -/
theorem reach_eq {handle : IndexHandle} {opened : Nat} (word : EncodedFormula) : ∀ {count : Nat}
    {node : TmpIndexNode} {address : Nat}, Represents Numbered handle.image node address →
    WellFormed (opened + count) node → Closes EncodedToken.arity count word →
    Option.Rel (Represents Numbered handle.image) (walk word node) (reach handle word address) := by
  induction word with
  | nil =>
    intro count node address represents _ _
    exact .some represents
  | cons token rest ih =>
    intro count node address represents shape closes
    cases count with
    | zero => exact closes.elim
    | succ count =>
      rw [closes_cons] at closes
      obtain ⟨child, found, related⟩ := represents.getChild_eq shape.children_ne_nil token
      rw [walk, reach, found, Option.bind_eq_bind, Option.bind_some]
      cases below : node.child token with
      | none =>
        rw [below] at related
        cases related
        exact .none
      | some next =>
        rw [below] at related
        cases related with
        | some related =>
          refine ih related ?_ closes
          rw [← Nat.add_assoc]
          exact shape.child below

/-- **A run explores words**: it hands their leaves to the callback one after the other; unless the callback
ended it, all of them, and then the context is as `Back` says. It may not fit the arrays. -/
def Explores (handle : IndexHandle) (resultCb : List Nat → QueryReturn) (address : Nat) (calls : List Nat)
    (words : List EncodedFormula) (Back : QueryCtxt → Prop) (result : EngineResult) : Prop :=
  result = .error .overflow ∨ ∃ ret ctxt new done rest, result = .ok (ret, ctxt) ∧ ctxt.calls = calls ++ new ∧
    words = done ++ rest ∧
    List.Forall₂ (fun word leaf => reach handle word address = some leaf) done new ∧
    (ret ≠ .queryContinue → resultCb ctxt.calls = ret) ∧ (ret = .queryContinue → rest = [] ∧ Back ctxt)

namespace Explores

variable {handle : IndexHandle} {resultCb : List Nat → QueryReturn} {address child : Nat} {calls : List Nat}
  {words words' : List EncodedFormula} {Back Back' : QueryCtxt → Prop} {result : EngineResult}

/-- Going on behind an exploration. -/
theorem bind {onward : QueryCtxt → EngineResult} (explores : Explores handle resultCb address calls words Back result)
    (later : ∀ ctxt, Back ctxt → Explores handle resultCb address ctxt.calls words' Back' (onward ctxt)) :
    Explores handle resultCb address calls (words ++ words') Back' (onContinue result onward) := by
  rcases explores with rfl | ⟨ret, ctxt, new, done, rest, rfl, made, split, reached, ended, back⟩
  · exact Or.inl rfl
  · cases ret with
    | queryContinue =>
      obtain ⟨rfl, restored⟩ := back rfl
      rw [List.append_nil] at split
      subst split
      rcases later ctxt restored with failed | ⟨ret, ctxt', new', done', rest', computed, made', split', reached',
        ended', back'⟩
      · exact Or.inl failed
      · refine Or.inr ⟨ret, ctxt', new ++ new', words ++ done', rest', computed, ?_, ?_, ?_, ended', back'⟩
        · rw [made', made, List.append_assoc]
        · rw [split', List.append_assoc]
        · exact List.rel_append reached reached'
    | queryStop =>
      exact Or.inr ⟨.queryStop, ctxt, new, done, rest ++ words', rfl, made,
        by rw [split, List.append_assoc], reached, ended, nofun⟩
    | queryError =>
      exact Or.inr ⟨.queryError, ctxt, new, done, rest ++ words', rfl, made,
        by rw [split, List.append_assoc], reached, ended, nofun⟩

/-- Nothing to explore. -/
theorem nothing (ctxt : QueryCtxt) (back : Back ctxt) :
    Explores handle resultCb address ctxt.calls [] Back (.ok (.queryContinue, ctxt)) :=
  Or.inr ⟨_, ctxt, [], [], [], rfl, (List.append_nil _).symm, rfl, .nil, fun other => absurd rfl other,
    fun _ => ⟨rfl, back⟩⟩

/-- An exploration, and then only the context is put in order. -/
theorem restore {onward : QueryCtxt → EngineResult}
    (explores : Explores handle resultCb address calls words Back result)
    (later : ∀ ctxt, Back ctxt → onward ctxt = .error .overflow ∨
      ∃ ctxt', onward ctxt = .ok (.queryContinue, ctxt') ∧ ctxt'.calls = ctxt.calls ∧ Back' ctxt') :
    Explores handle resultCb address calls words Back' (onContinue result onward) := by
  have whole : Explores handle resultCb address calls (words ++ []) Back' (onContinue result onward) := by
    refine explores.bind fun ctxt back => ?_
    rcases later ctxt back with failed | ⟨ctxt', computed, same, back'⟩
    · exact Or.inl failed
    · rw [computed, ← same]
      exact nothing ctxt' back'
  rwa [List.append_nil] at whole

/-- Exploring from a node further down. -/
theorem behind {front : EncodedFormula} (explores : Explores handle resultCb child calls words Back result)
    (reached : reach handle front address = some child) :
    Explores handle resultCb address calls (words.map (front ++ ·)) Back result := by
  rcases explores with failed | ⟨ret, ctxt, new, done, rest, computed, made, rfl, below, ended, back⟩
  · exact Or.inl failed
  · refine Or.inr ⟨ret, ctxt, new, done.map (front ++ ·), rest.map (front ++ ·), computed, made,
      List.map_append, ?_, ended, fun continued => ?_⟩
    · rw [List.forall₂_map_left_iff]
      refine below.imp fun word leaf found => ?_
      rw [reach_append, reached, Option.bind_some, found]
    · obtain ⟨rfl, restored⟩ := back continued
      exact ⟨rfl, restored⟩

/-- A loop explores the same words in every round. -/
theorem forEach {α : Type} {body : α → QueryCtxt → EngineResult} {Inv : QueryCtxt → Prop}
    (round : ∀ item ctxt, Inv ctxt → Explores handle resultCb address ctxt.calls words Inv (body item ctxt))
    (items : List α) : ∀ {ctxt : QueryCtxt}, Inv ctxt →
      Explores handle resultCb address ctxt.calls (List.replicate items.length words).flatten Inv
        (Engine.forEach body items ctxt) := by
  induction items with
  | nil => intro ctxt holds; exact nothing ctxt holds
  | cons item rest ih =>
    intro ctxt holds
    rw [List.length_cons, List.replicate_succ, List.flatten_cons]
    exact (round item ctxt holds).bind fun ctxt' holds' => ih holds'

end Explores

/-! ### The context -/

/-- A context that has been restored, up to the tokens of variables that are not solved. -/
structure Restored (ctxt ctxt' : QueryCtxt) : Prop where
  queryStack : ctxt'.queryStack = ctxt.queryStack
  currIndexInode : ctxt'.currIndexInode = ctxt.currIndexInode
  indexStack : ctxt'.indexStack = ctxt.indexStack
  env : envOf ctxt' = envOf ctxt

/-- The same while a variable is being solved: it keeps its tokens. -/
structure RestoredVar (ctxt ctxt' : QueryCtxt) : Prop extends Restored ctxt ctxt' where
  solvingVarId : ctxt'.solvingVarId = ctxt.solvingVarId
  var : ctxt'.vars ctxt.solvingVarId = ctxt.vars ctxt.solvingVarId

theorem RestoredVar.refl (ctxt : QueryCtxt) : RestoredVar ctxt ctxt := ⟨⟨rfl, rfl, rfl, rfl⟩, rfl, rfl⟩

theorem RestoredVar.trans {ctxt ctxt' ctxt'' : QueryCtxt} (one : RestoredVar ctxt ctxt')
    (two : RestoredVar ctxt' ctxt'') : RestoredVar ctxt ctxt'' where
  queryStack := two.queryStack.trans one.queryStack
  currIndexInode := two.currIndexInode.trans one.currIndexInode
  indexStack := two.indexStack.trans one.indexStack
  env := two.env.trans one.env
  solvingVarId := two.solvingVarId.trans one.solvingVarId
  var := by
    have later := two.var
    rw [one.solvingVarId] at later
    exact later.trans one.var

/-- A word a variable can stand for: a complete term without variables. -/
def IsTerm (word : EncodedFormula) : Prop :=
  Closes EncodedToken.arity 1 word ∧ ∀ token ∈ word, token.isVar = false

/-- **A context that stands at a node of the index**, with `opened` subterms open. -/
structure Stands (handle : IndexHandle) (node : TmpIndexNode) (opened : Nat) (ctxt : QueryCtxt) : Prop where
  represents : Represents Numbered handle.image node ctxt.currIndexInode
  sound : Sound (fun token => token.isVar = false) opened node
  indexStack : ctxt.indexStack = []
  terms : ∀ id word, envOf ctxt id = some word → IsTerm word

/-- The same, with a query that fits. -/
structure Ready (handle : IndexHandle) (node : TmpIndexNode) (opened : Nat) (ctxt : QueryCtxt) : Prop extends
    Stands handle node opened ctxt where
  closes : Closes queryArity opened ctxt.queryStack

theorem envOf_setSolved_true (ctxt : QueryCtxt) (id : Nat) :
    envOf (setSolved ctxt id true) = Function.update (envOf ctxt) id (some (ctxt.vars id).tokens) := by
  funext other
  by_cases same : other = id
  · subst same
    simp [envOf, setSolved, setVar]
  · simp [envOf, setSolved, setVar, Function.update_of_ne same]

theorem envOf_setSolved_false (ctxt : QueryCtxt) (id : Nat) :
    envOf (setSolved ctxt id false) = Function.update (envOf ctxt) id none := by
  funext other
  by_cases same : other = id
  · subst same
    simp [envOf, setSolved, setVar]
  · simp [envOf, setSolved, setVar, Function.update_of_ne same]

theorem tokens_of_envOf {ctxt : QueryCtxt} {id : Nat} {word : EncodedFormula} (found : envOf ctxt id = some word) :
    (ctxt.vars id).tokens = word := by
  unfold envOf at found
  split at found
  · exact Option.some.inj found
  · cases found

/-- The tokens of a variable that is not solved do not matter. -/
theorem envOf_setTokens {ctxt : QueryCtxt} {id : Nat} (unsolved : (ctxt.vars id).solved = false)
    (tokens : List EncodedToken) : envOf (setTokens ctxt id tokens) = envOf ctxt := by
  funext other
  by_cases same : other = id
  · subst same
    simp [envOf, setTokens, setVar, unsolved]
  · simp [envOf, setTokens, setVar, Function.update_of_ne same]

/-- Pushing a token back on the query stack. -/
theorem tokenStackPush_eq (stack : List EncodedToken) (token : EncodedToken) :
    tokenStackPush stack token = .error .overflow ∨ tokenStackPush stack token = .ok (token :: stack) := by
  unfold tokenStackPush
  split
  · exact Or.inr rfl
  · exact Or.inl rfl

theorem tokenStackPushAll_eq (stack tokens : List EncodedToken) :
    tokenStackPushAll stack tokens = .error .overflow ∨ tokenStackPushAll stack tokens = .ok (tokens ++ stack) := by
  induction tokens with
  | nil => exact Or.inr rfl
  | cons token rest ih =>
    have step : tokenStackPushAll stack (token :: rest) =
        tokenStackPushAll stack rest >>= fun pushed => tokenStackPush pushed token := by
      unfold tokenStackPushAll
      rw [List.reverse_cons, List.foldlM_append]
      simp only [List.foldlM_cons, List.foldlM_nil, bind_pure]
    rw [step]
    rcases ih with failed | pushed
    · rw [failed]
      exact Or.inl rfl
    · rw [pushed]
      exact tokenStackPush_eq (rest ++ stack) token

/-! ### One token -/

section Tokens

variable {handle : IndexHandle} {resultCb : List Nat → QueryReturn} {node : TmpIndexNode} {opened : Nat}
  {ctxt : QueryCtxt}

/-- What the engine does at nodes up to a height, with enough fuel. -/
def ProcessSpec (handle : IndexHandle) (resultCb : List Nat → QueryReturn) (height : Nat) : Prop :=
  ∀ (fuel : Nat) (ctxt : QueryCtxt) {opened : Nat} {node : TmpIndexNode}, node.height < height →
    3 * node.height + 4 ≤ fuel → Ready handle node opened ctxt →
    Explores handle resultCb ctxt.currIndexInode ctxt.calls (hits (envOf ctxt) ctxt.queryStack node) (Restored ctxt)
      (processQueryToken handle.image resultCb fuel ctxt)

theorem height_child {token : EncodedToken} {next : TmpIndexNode} (found : (token, next) ∈ node.children) :
    next.height < node.height := by
  cases node with
  | mk leaf children =>
    rw [height]
    exact height_lt found

/-- The search for a child in the two layouts is the one of the accessor. -/
theorem read_getChild {address off : Nat} {long : Bool} {offsets : List Nat} {token : EncodedToken}
    (inner : Represents.Inner Numbered handle node address long offsets)
    (found : getChildIn handle.image address long token = some off) :
    ∃ type, nodeType handle.image address = some type ∧
      (if type = longInternalNode then read (inodeLongGetChild handle.image address token)
        else if type = internalNode then read (inodeGetChild handle.image address token)
        else .error .assertion) = .ok off := by
  refine ⟨_, inner.holds.nodeType_eq, ?_⟩
  cases long with
  | true =>
    rw [if_pos (show inodeType true = longInternalNode from rfl), inodeLongGetChild, found]
    rfl
  | false =>
    rw [if_neg (show ¬ inodeType false = longInternalNode by decide),
      if_pos (show inodeType false = internalNode from rfl), inodeGetChild, found]
    rfl

/-- The token of an entry leads to its child. -/
theorem reach_entry {address : Nat} {long : Bool} {offsets : List Nat}
    (inner : Represents.Inner Numbered handle node address long offsets)
    (sorted : VectorMap.Sorted EncodedToken.compare node.children) {number off : Nat}
    {entry : EncodedToken × TmpIndexNode} (atChild : node.children[number]? = some entry)
    (atOffset : offsets[number]? = some off) : reach handle [entry.1] address = some (address - 4 * off) := by
  rw [reach, inner.getChild_at sorted atChild atOffset]
  rfl

/-- No entry of the node is a variable, so there are no variables of the index to try. -/
theorem inodeGetMaxVar_eq {address fuel : Nat} {long : Bool} {offsets : List Nat}
    (inner : Represents.Inner Numbered handle node address long offsets)
    (sound : Sound (fun token => token.isVar = false) (opened + 1) node) :
    inodeGetMaxVar handle.image address (fuel + 1) 0 = .ok 0 := by
  obtain ⟨entry, rest, children⟩ := List.exists_cons_of_ne_nil sound.shape.children_ne_nil
  have first : node.children[0]? = some entry := by rw [children]; rfl
  obtain ⟨off, _, atEntry⟩ := inner.entry_at first
  -- the first entry is at the same place in both layouts
  have token : entryToken handle.image address false 0 = some entry.1 := by
    rw [← inner.holds.entryToken_eq atEntry]
    rfl
  have constant : ¬ entry.1.id ≤ varIdMax :=
    of_decide_eq_false (sound.entry (List.mem_of_getElem? first)).1
  rw [inodeGetMaxVar, token]
  exact if_neg constant

/-- The search for a child, and what it leads to. -/
theorem Stands.child (stands : Stands handle node (opened + 1) ctxt) (token : EncodedToken) :
    ∃ type off, nodeType handle.image ctxt.currIndexInode = some type ∧
      (if type = longInternalNode then read (inodeLongGetChild handle.image ctxt.currIndexInode token)
        else if type = internalNode then read (inodeGetChild handle.image ctxt.currIndexInode token)
        else .error .assertion) = .ok off ∧
      ((off = 0 ∧ node.child token = none) ∨
        (off ≠ 0 ∧ ∃ next address, node.child token = some next ∧ Represents Numbered handle.image next address ∧
          IndexHandle.relOff2addr ctxt.currIndexInode off = some address ∧
          reach handle [token] ctxt.currIndexInode = some address)) := by
  have shape := stands.sound.shape
  obtain ⟨long, offsets, inner⟩ := stands.represents.inner shape.children_ne_nil
  rcases inner.search_eq shape.sorted token with ⟨number, next, off, atChild, atOffset, found⟩ | ⟨absent, found⟩
  · obtain ⟨type, typed, searched⟩ := read_getChild inner found
    obtain ⟨nonnull, converted⟩ := inner.relOff2addr_eq (List.mem_of_getElem? atOffset)
    have reached := reach_entry inner shape.sorted atChild atOffset
    refine ⟨type, off, typed, searched, Or.inr ⟨nonnull, next, _, ?_, ?_, converted, reached⟩⟩
    · exact (VectorMap.find_eq_some_iff shape.sorted).mpr (List.mem_of_getElem? atChild)
    · exact inner.child number (token, next) off atChild atOffset
  · obtain ⟨type, typed, searched⟩ := read_getChild inner found
    exact ⟨type, 0, typed, searched, Or.inl ⟨rfl, (VectorMap.find_eq_none_iff shape.sorted).mpr absent⟩⟩

/-- Pushing the query token back. -/
theorem revertQuery_eq (token : EncodedToken) (ctxt : QueryCtxt) :
    revertQuery token ctxt = .error .overflow ∨
      revertQuery token ctxt = .ok (.queryContinue, { ctxt with queryStack := token :: ctxt.queryStack }) := by
  unfold revertQuery
  rcases tokenStackPush_eq ctxt.queryStack token with failed | pushed
  · rw [failed]
    exact Or.inl rfl
  · rw [pushed]
    exact Or.inr rfl

/-- A constant on top of the query, at a node of the index. -/
theorem processQueryToken_constant_eq (image : List UInt8) (fuel : Nat) {token : EncodedToken}
    {rest : EncodedFormula} (stack : ctxt.queryStack = token :: rest) (constant : token.isVar = false)
    (empty : ctxt.indexStack = []) :
    processQueryToken image resultCb (fuel + 1) ctxt = (do
      let type ← read (nodeType image ctxt.currIndexInode)
      let off ← (if type = longInternalNode then read (inodeLongGetChild image ctxt.currIndexInode token)
        else if type = internalNode then read (inodeGetChild image ctxt.currIndexInode token)
        else .error .assertion)
      if off = 0 then revertQuery token { ctxt with queryStack := rest }
      else
        let child ← read (IndexHandle.relOff2addr ctxt.currIndexInode off)
        onContinue (processQueryToken image resultCb fuel
            { ctxt with queryStack := rest, currIndexInode := child }) fun later =>
          onContinue (revertQuery token { later with currIndexInode := ctxt.currIndexInode }) fun later => do
            let hvarIdMax ← inodeGetMaxVar image ctxt.currIndexInode fuel 0
            forEach (fun hvarId later => matchVarToStack image resultCb fuel false
              { later with solvingVarId := hvarId }) (List.range hvarIdMax) later) := by
  obtain ⟨query, curr, index, vars, solving, calls⟩ := ctxt
  obtain rfl : query = token :: rest := stack
  obtain rfl : index = [] := empty
  rw [processQueryToken]
  simp only [constant]
  rfl

/-- **A constant of the query** leads to one child, or nowhere. -/
theorem processQueryToken_constant {fuel height : Nat} (spec : ProcessSpec handle resultCb height)
    (deep : node.height ≤ height) (enough : 3 * node.height + 1 ≤ fuel) {token : EncodedToken}
    {rest : EncodedFormula} (stack : ctxt.queryStack = token :: rest) (constant : token.isVar = false)
    (stands : Stands handle node (opened + 1) ctxt) (closes : Closes queryArity (opened + token.arity) rest) :
    Explores handle resultCb ctxt.currIndexInode ctxt.calls (hits (envOf ctxt) (token :: rest) node) (Restored ctxt)
      (processQueryToken handle.image resultCb (fuel + 1) ctxt) := by
  obtain ⟨type, off, typed, searched, outcome⟩ := stands.child token
  rw [processQueryToken_constant_eq handle.image fuel stack constant stands.indexStack, typed,
    hits_constant _ constant]
  show Explores _ _ _ _ _ _ (Except.bind (Except.ok type) _)
  rw [Except.bind, searched]
  show Explores _ _ _ _ _ _ (ite _ _ _)
  rcases outcome with ⟨rfl, missing⟩ | ⟨nonnull, next, address, below, represents, converted, reached⟩
  · rw [if_pos rfl, missing]
    rcases revertQuery_eq token { ctxt with queryStack := rest } with failed | pushed
    · exact Or.inl failed
    · rw [pushed]
      exact Explores.nothing { ctxt with queryStack := token :: rest } ⟨stack.symm, rfl, rfl, rfl⟩
  · rw [if_neg nonnull, converted, below]
    have lower := height_child ((VectorMap.find_eq_some_iff stands.sound.shape.sorted).mp below)
    obtain ⟨long, offsets, inner⟩ := stands.represents.inner stands.sound.shape.children_ne_nil
    have explores := spec fuel { ctxt with queryStack := rest, currIndexInode := address }
      (lt_of_lt_of_le lower deep) (by omega)
      ⟨⟨represents, stands.sound.child below, stands.indexStack, stands.terms⟩, closes⟩
    refine (explores.behind reached).restore fun later back => ?_
    rcases revertQuery_eq token { later with currIndexInode := ctxt.currIndexInode } with failed | pushed
    · rw [failed]
      exact Or.inl rfl
    · obtain ⟨more, rfl⟩ : ∃ more, fuel = more + 1 := ⟨fuel - 1, by omega⟩
      rw [pushed, onContinue, inodeGetMaxVar_eq inner stands.sound]
      refine Or.inr ⟨_, rfl, rfl, ?_, rfl, back.indexStack, back.env⟩
      exact (congrArg (token :: ·) back.queryStack).trans stack.symm

/-- A variable on top of the query. -/
theorem processQueryToken_var_eq (image : List UInt8) (fuel : Nat) {token : EncodedToken}
    {rest : EncodedFormula} (stack : ctxt.queryStack = token :: rest) (isVar : token.isVar = true) :
    processQueryToken image resultCb (fuel + 1) ctxt = (do
      let var ← varAt ctxt token.id
      if var.solved then
        let expanded ← tokenStackPushAll rest var.tokens
        onContinue (processQueryToken image resultCb fuel { ctxt with queryStack := expanded }) fun later => do
          let query ← tokenStackPopMany later.queryStack var.tokens.length
          revertQuery token { later with queryStack := query }
      else
        onContinue (matchVarToIndex image resultCb fuel 1
          (setTokens { ctxt with queryStack := rest, solvingVarId := token.id } token.id [])) (revertQuery token)) := by
  obtain ⟨query, curr, index, vars, solving, calls⟩ := ctxt
  obtain rfl : query = token :: rest := stack
  rw [processQueryToken]
  simp only [isVar]
  rfl

theorem tokenStackPopMany_append (first second : List EncodedToken) :
    tokenStackPopMany (first ++ second) first.length = .ok second := by
  rw [tokenStackPopMany, if_pos (by rw [List.length_append]; omega), List.drop_left]

/-- A solved variable in place of which its word is pushed. -/
theorem Stands.expand (stands : Stands handle node (opened + 1) ctxt) {id : Nat} {word rest : EncodedFormula}
    (bound : envOf ctxt id = some word) (closes : Closes queryArity opened rest) :
    Ready handle node (opened + 1) { ctxt with queryStack := word ++ rest } := by
  obtain ⟨term, constants⟩ := stands.terms id _ bound
  refine ⟨⟨stands.represents, stands.sound, stands.indexStack, stands.terms⟩, ?_⟩
  rw [Nat.add_comm]
  refine ((closes_congr fun token member => ?_).mpr term).append closes
  exact queryArity_of_constant (constants token member)

/-- **A solved variable of the query** is replaced by the word it stands for. -/
theorem processQueryToken_solved {fuel height : Nat} (spec : ProcessSpec handle resultCb height)
    (deep : node.height ≤ height) (enough : 3 * node.height + 1 ≤ fuel) {token : EncodedToken}
    {rest : EncodedFormula} (stack : ctxt.queryStack = token :: rest) (isVar : token.isVar = true)
    (solved : (ctxt.vars token.id).solved = true) (stands : Stands handle node (opened + 1) ctxt)
    (closes : Closes queryArity opened rest) :
    Explores handle resultCb ctxt.currIndexInode ctxt.calls (hits (envOf ctxt) (token :: rest) node) (Restored ctxt)
      (processQueryToken handle.image resultCb (fuel + 2) ctxt) := by
  have bound : envOf ctxt token.id = some (ctxt.vars token.id).tokens := if_pos solved
  obtain ⟨term, constants⟩ := stands.terms token.id _ bound
  generalize words : (ctxt.vars token.id).tokens = word at bound term constants
  have expanded : hits (envOf ctxt) (token :: rest) node = hits (envOf ctxt) (word ++ rest) node := by
    rw [hits_append_constants _ constants, hits, if_pos isVar, bound]
  rw [processQueryToken_var_eq handle.image _ stack isVar, varAt]
  split
  · show Explores _ _ _ _ _ _ (ite _ _ _)
    rw [if_pos solved, words]
    rcases tokenStackPushAll_eq rest word with failed | pushed
    · rw [failed]
      exact Or.inl rfl
    · rw [pushed]
      have ready := stands.expand bound closes
      obtain ⟨first, others, rfl, -⟩ := term.exists_cons
      have constant := constants first List.mem_cons_self
      have closesWord : Closes queryArity (opened + first.arity) (others ++ rest) := by
        have whole := ready.closes
        rwa [List.cons_append, closes_cons, queryArity_of_constant constant] at whole
      have explores := processQueryToken_constant spec deep enough rfl constant ready.toStands closesWord
      rw [expanded]
      refine explores.restore fun later back => ?_
      have query : later.queryStack = (first :: others) ++ rest := back.queryStack
      rw [query, tokenStackPopMany_append]
      rcases revertQuery_eq token { later with queryStack := rest } with failed | reverted
      · exact Or.inl failed
      · exact Or.inr ⟨_, reverted, rfl, stack.symm, back.currIndexInode, back.indexStack, back.env⟩
  · exact Or.inl rfl

end Tokens

/-! ### A variable along the index -/

section Variables

variable {handle : IndexHandle} {resultCb : List Nat → QueryReturn} {opened arity : Nat} {ctxt : QueryCtxt}
  {word : EncodedFormula}

/-- **The variable that is being solved**: the word it has grown to, with `arity` subterms still open. -/
structure Solving (ctxt : QueryCtxt) (arity : Nat) (word : EncodedFormula) : Prop where
  var : ctxt.vars ctxt.solvingVarId = ⟨false, word⟩
  completes : ∀ more, Closes EncodedToken.arity arity more → Closes EncodedToken.arity 1 (word ++ more)
  constants : ∀ token ∈ word, token.isVar = false
  few : word.length ≤ maxVarInstantiationSize
  small : arity ≤ 1 + 255 * word.length

/-- The context in which a variable has grown by the token of an entry. -/
abbrev grown (ctxt : QueryCtxt) (word : EncodedFormula) (token : EncodedToken) (child : Nat) : QueryCtxt :=
  { setTokens ctxt ctxt.solvingVarId (word ++ [token]) with currIndexInode := child }

namespace Solving

theorem unsolved (solving : Solving ctxt arity word) : (ctxt.vars ctxt.solvingVarId).solved = false := by
  rw [solving.var]

theorem env_none (solving : Solving ctxt arity word) : envOf ctxt ctxt.solvingVarId = none :=
  if_neg (by rw [solving.unsolved]; exact Bool.false_ne_true)

theorem restored {ctxt' : QueryCtxt} (solving : Solving ctxt arity word) (back : RestoredVar ctxt ctxt') :
    Solving ctxt' arity word :=
  ⟨by rw [back.solvingVarId, back.var, solving.var], solving.completes, solving.constants, solving.few,
    solving.small⟩

/-- The variable grows by one token. -/
theorem push (solving : Solving ctxt (arity + 1) word) {token : EncodedToken} (constant : token.isVar = false)
    (fits : word.length < maxVarInstantiationSize) (child : Nat) :
    Solving (grown ctxt word token child) (arity + token.arity) (word ++ [token]) where
  var := by
    show Function.update _ _ _ ctxt.solvingVarId = _
    rw [Function.update_self, solving.var]
  completes more closes := by
    rw [List.append_assoc]
    exact solving.completes (token :: more) closes
  constants other member := by
    rcases List.mem_append.mp member with before | last
    · exact solving.constants other before
    · rw [List.mem_singleton.mp last]
      exact constant
  few := by
    rw [List.length_append]
    exact fits
  small := by
    have := solving.small
    have := token.arity_lt
    rw [List.length_append, List.length_singleton]
    omega

end Solving

/-- Resolving one constant token saves it. -/
theorem resolve_constant {fuel : Nat} (id : Nat) {token : EncodedToken} (constant : token.isVar = false) :
    resolve id (fuel + 2) ctxt [token] 0 = if (ctxt.vars id).tokens.length < maxVarInstantiationSize then
        .ok (.finished, setTokens ctxt id ((ctxt.vars id).tokens ++ [token]), 1)
      else .error .overflow := by
  rw [resolve]
  simp only [constant]
  rfl

/-- A variable that is complete. -/
theorem matchVarToIndex_zero_eq (image : List UInt8) (fuel : Nat) (ctxt : QueryCtxt) :
    matchVarToIndex image resultCb (fuel + 1) 0 ctxt = (do
      let var ← varAt ctxt ctxt.solvingVarId
      onContinue (processQueryToken image resultCb fuel
          (if var.tokens.isEmpty then ctxt else setSolved ctxt ctxt.solvingVarId true)) fun later =>
        .ok (.queryContinue,
          setSolved { later with solvingVarId := ctxt.solvingVarId } ctxt.solvingVarId false)) := by
  rw [matchVarToIndex]
  rfl

/-- A variable that is complete stands for a term. -/
theorem Solving.isTerm (solving : Solving ctxt 0 word) : IsTerm word := by
  have whole := solving.completes [] trivial
  rw [List.append_nil] at whole
  exact ⟨whole, solving.constants⟩

theorem Solving.env_solved (solving : Solving ctxt 0 word) : envOf (setSolved ctxt ctxt.solvingVarId true) =
    Function.update (envOf ctxt) ctxt.solvingVarId (some word) := by
  rw [envOf_setSolved_true, solving.var]

/-- The variable is solved. -/
theorem Stands.finish {node : TmpIndexNode} (stands : Stands handle node opened ctxt) (solving : Solving ctxt 0 word) :
    Stands handle node opened (setSolved ctxt ctxt.solvingVarId true) := by
  refine ⟨stands.represents, stands.sound, stands.indexStack, fun id term found => ?_⟩
  rw [solving.env_solved] at found
  by_cases same : id = ctxt.solvingVarId
  · subst same
    rw [Function.update_self] at found
    obtain rfl := Option.some.inj found
    exact solving.isTerm
  · rw [Function.update_of_ne same] at found
    exact stands.terms id term found

/-- **The rest of the query behind a complete variable.** -/
theorem matchVarToIndex_zero {fuel height : Nat} {node : TmpIndexNode} (spec : ProcessSpec handle resultCb height)
    (deep : node.height < height) (enough : 3 * node.height + 4 ≤ fuel) (stands : Stands handle node opened ctxt)
    (closes : Closes queryArity opened ctxt.queryStack) (solving : Solving ctxt 0 word) :
    Explores handle resultCb ctxt.currIndexInode ctxt.calls
      (hits (Function.update (envOf ctxt) ctxt.solvingVarId (some word)) ctxt.queryStack node) (RestoredVar ctxt)
      (matchVarToIndex handle.image resultCb (fuel + 1) 0 ctxt) := by
  have nonempty : word.isEmpty = false := by
    obtain ⟨token, rest, rfl, _⟩ := solving.isTerm.1.exists_cons
    rfl
  have env := solving.env_solved
  have ready : Ready handle node opened (setSolved ctxt ctxt.solvingVarId true) := ⟨stands.finish solving, closes⟩
  rw [matchVarToIndex_zero_eq, varAt]
  split
  · show Explores _ _ _ _ _ _ (onContinue (processQueryToken _ _ _ (ite _ _ _)) _)
    rw [solving.var, if_neg (by rw [nonempty]; exact Bool.false_ne_true)]
    have explores := spec fuel (setSolved ctxt ctxt.solvingVarId true) deep enough ready
    rw [env] at explores
    refine explores.restore fun later back => Or.inr ⟨_, rfl, rfl, ⟨back.queryStack, back.currIndexInode,
      back.indexStack, ?_⟩, rfl, ?_⟩
    · rw [envOf_setSolved_false]
      show Function.update (envOf later) _ _ = _
      rw [back.env, env, Function.update_idem, ← solving.env_none, Function.update_eq_self]
    · have kept := congrFun (back.env.trans env) ctxt.solvingVarId
      rw [Function.update_self] at kept
      show Function.update later.vars _ _ ctxt.solvingVarId = _
      rw [Function.update_self, solving.var, tokens_of_envOf kept]
  · exact Or.inl rfl

/-- One round of the loop of `match_var_to_index`. -/
def growRound (image : List UInt8) (resultCb : List Nat → QueryReturn) (fuel arity varId node type : Nat)
    (ctxt : QueryCtxt) : EngineResult := do
  let entryToken ← read (entryToken image node (decide (type = longInternalNode)) 0)
  let entryOff ← read (entryOff image node (decide (type = longInternalNode)) 0)
  let (resolution, ctxt, pushedVarTokens) ← resolve varId fuel ctxt [entryToken] 0
  match resolution with
  | .infinite => .error .undefined
  | _ =>
    let child ← read (IndexHandle.relOff2addr ctxt.currIndexInode entryOff)
    onContinue (matchVarToIndex image resultCb fuel ((arity + entryToken.arity - 1) % 2 ^ 32)
        { ctxt with currIndexInode := child }) fun later =>
      .ok (.queryContinue, setTokens { later with currIndexInode := ctxt.currIndexInode } varId
        ((later.vars varId).tokens.take ((later.vars varId).tokens.length - pushedVarTokens)))

/-- A variable that has to grow. -/
theorem matchVarToIndex_succ_eq (image : List UInt8) (fuel arity : Nat) (empty : ctxt.indexStack = []) :
    matchVarToIndex image resultCb (fuel + 1) (arity + 1) ctxt = (do
      let _ ← varAt ctxt ctxt.solvingVarId
      let size ← read (inodeSize image ctxt.currIndexInode)
      let type ← read (nodeType image ctxt.currIndexInode)
      forEach (fun _ => growRound image resultCb fuel (arity + 1) ctxt.solvingVarId ctxt.currIndexInode type)
        (List.range (size % 2 ^ 32)) ctxt) := by
  rw [matchVarToIndex]
  simp only [empty]
  rfl

/-- Undoing the growth by one token. -/
theorem restoredVar_of_grown {token : EncodedToken} {child : Nat} {later : QueryCtxt}
    (solving : Solving ctxt arity word) (back : RestoredVar (grown ctxt word token child) later) :
    RestoredVar ctxt (setTokens { later with currIndexInode := ctxt.currIndexInode } ctxt.solvingVarId
      ((later.vars ctxt.solvingVarId).tokens.take ((later.vars ctxt.solvingVarId).tokens.length - 1))) := by
  have var : later.vars ctxt.solvingVarId = ⟨false, word ++ [token]⟩ := by
    refine back.var.trans ?_
    show Function.update _ _ _ ctxt.solvingVarId = _
    rw [Function.update_self, solving.var]
  have cut : (word ++ [token]).take ((word ++ [token]).length - 1) = word := by
    rw [List.length_append, List.length_singleton, Nat.add_sub_cancel, List.take_left]
  refine ⟨⟨back.queryStack, rfl, back.indexStack, ?_⟩, back.solvingVarId, ?_⟩
  · rw [envOf_setTokens (by show (later.vars _).solved = false; rw [var])]
    exact back.env.trans (envOf_setTokens solving.unsolved _)
  · show Function.update later.vars _ _ ctxt.solvingVarId = _
    rw [Function.update_self, solving.var]
    show VarInstantiation.mk (later.vars ctxt.solvingVarId).solved _ = _
    rw [var, cut]

/-- Where the engine finds a child's entry: in the first one. -/
theorem firstEntry_eq {node next : TmpIndexNode} {token : EncodedToken} {address : Nat}
    {rest : List (EncodedToken × TmpIndexNode)} (represents : Represents Numbered handle.image node address)
    (shape : WellFormed (opened + 1) node) (children : node.children = (token, next) :: rest) :
    ∃ type off child, inodeSize handle.image address = some (rest.length + 1) ∧ rest.length + 1 < 2 ^ 31 ∧
      nodeType handle.image address = some type ∧
      entryToken handle.image address (decide (type = longInternalNode)) 0 = some token ∧
      entryOff handle.image address (decide (type = longInternalNode)) 0 = some off ∧
      IndexHandle.relOff2addr address off = some child ∧ Represents Numbered handle.image next child ∧
      reach handle [token] address = some child := by
  obtain ⟨long, offsets, inner⟩ := represents.inner shape.children_ne_nil
  have first : node.children[0]? = some (token, next) := by rw [children]; rfl
  obtain ⟨off, atOffset, atEntry⟩ := inner.entry_at first
  obtain ⟨nonnull, converted⟩ := inner.relOff2addr_eq (List.mem_of_getElem? atOffset)
  have few := inner.few
  have long_eq : decide (inodeType long = longInternalNode) = long := by cases long <;> rfl
  have size : (TmpIndex.entriesOf node.children offsets).length = rest.length + 1 := by
    rw [TmpIndex.length_entriesOf inner.same, children, List.length_cons]
  rw [children, List.length_cons] at few
  have reached := reach_entry inner shape.sorted first atOffset
  refine ⟨inodeType long, off, _, ?_, few, inner.holds.nodeType_eq, ?_, ?_, converted,
    inner.child 0 _ off first atOffset, reached⟩
  · rw [inner.holds.inodeSize_eq (by rw [size]; omega), size]
  · rw [long_eq]
    exact inner.holds.entryToken_eq atEntry
  · rw [long_eq]
    exact inner.holds.entryOff_eq atEntry (inner.bounds off (List.mem_of_getElem? atOffset)).2.2

/-- The words explored while a variable that has grown to `word` closes `arity` more subterms. -/
def grownHits (env : Env) (varId : Nat) (query word : EncodedFormula) (arity : Nat) (node : TmpIndexNode) :
    List EncodedFormula :=
  (node.firstTerms arity).flatMap fun term =>
    (hits (Function.update env varId (some (word ++ term.1))) query term.2).map (term.1 ++ ·)

theorem grownHits_zero (env : Env) (varId : Nat) (query word : EncodedFormula) (node : TmpIndexNode) :
    grownHits env varId query word 0 node = hits (Function.update env varId (some word)) query node := by
  simp [grownHits]

/-- Growing along the first child, once for each child. -/
theorem grownHits_succ (env : Env) (varId : Nat) (query word : EncodedFormula) (arity : Nat)
    {node next : TmpIndexNode} {token : EncodedToken} {rest : List (EncodedToken × TmpIndexNode)}
    (children : node.children = (token, next) :: rest) :
    grownHits env varId query word (arity + 1) node = (List.replicate (rest.length + 1)
      ((grownHits env varId query (word ++ [token]) (arity + token.arity) next).map ([token] ++ ·))).flatten := by
  have round : ((next.firstTerms (arity + token.arity)).map fun term => (token :: term.1, term.2)).flatMap
      (fun term => (hits (Function.update env varId (some (word ++ term.1))) query term.2).map (term.1 ++ ·)) =
      (grownHits env varId query (word ++ [token]) (arity + token.arity) next).map ([token] ++ ·) := by
    rw [grownHits, List.flatMap_map, List.map_flatMap]
    refine List.flatMap_congr fun term _ => ?_
    rw [List.map_map, List.append_assoc]
    rfl
  rw [grownHits, firstTerms_succ children, ← List.flatMap_id, List.flatMap_assoc, List.flatMap_replicate, ← round]
  rfl

/-- One round explores behind the first child. -/
theorem growRound_spec {fuel type off child : Nat} {token : EncodedToken} {words : List EncodedFormula}
    (solving : Solving ctxt (arity + 1) word) (constant : token.isVar = false)
    (first : entryToken handle.image ctxt.currIndexInode (decide (type = longInternalNode)) 0 = some token)
    (offset : entryOff handle.image ctxt.currIndexInode (decide (type = longInternalNode)) 0 = some off)
    (converted : IndexHandle.relOff2addr ctxt.currIndexInode off = some child)
    (reached : reach handle [token] ctxt.currIndexInode = some child)
    (grows : ∀ later, RestoredVar ctxt later → word.length < maxVarInstantiationSize →
      Explores handle resultCb child later.calls words (RestoredVar (grown later word token child))
        (matchVarToIndex handle.image resultCb (fuel + 2) (arity + token.arity) (grown later word token child)))
    {later : QueryCtxt} (back : RestoredVar ctxt later) :
    Explores handle resultCb ctxt.currIndexInode later.calls (words.map ([token] ++ ·)) (RestoredVar ctxt)
      (growRound handle.image resultCb (fuel + 2) (arity + 1) ctxt.solvingVarId ctxt.currIndexInode type later) := by
  have solvingLater := solving.restored back
  rw [growRound, first, offset, ← back.solvingVarId]
  show Explores _ _ _ _ _ _ (resolve later.solvingVarId (fuel + 2) later [token] 0 >>= _)
  rw [resolve_constant _ constant, solvingLater.var]
  by_cases fits : word.length < maxVarInstantiationSize
  · rw [if_pos fits]
    have small : (arity + 1 + token.arity - 1) % 2 ^ 32 = arity + token.arity := by
      have := solving.small
      have := token.arity_lt
      rw [maxVarInstantiationSize] at fits
      omega
    show Explores _ _ _ _ _ _ (read (IndexHandle.relOff2addr later.currIndexInode off) >>= _)
    rw [back.currIndexInode, converted]
    show Explores _ _ _ _ _ _ (onContinue (matchVarToIndex _ _ _ ((arity + 1 + token.arity - 1) % 2 ^ 32) _) _)
    rw [small]
    refine ((grows later back fits).behind reached).restore fun last lastBack => Or.inr ⟨_, rfl, rfl, ?_⟩
    exact back.trans (restoredVar_of_grown solvingLater lastBack)
  · rw [if_neg fits]
    exact Or.inl rfl

theorem env_grown {later : QueryCtxt} (solving : Solving ctxt arity word) (back : RestoredVar ctxt later)
    (token : EncodedToken) (child : Nat) : envOf (grown later word token child) = envOf ctxt :=
  (envOf_setTokens (solving.restored back).unsolved _).trans back.env

/-- The context one node further down. -/
theorem Stands.grow {node next : TmpIndexNode} {token : EncodedToken} {child : Nat} {later : QueryCtxt}
    (stands : Stands handle node (opened + (arity + 1)) ctxt) (solving : Solving ctxt (arity + 1) word)
    (back : RestoredVar ctxt later) (member : (token, next) ∈ node.children)
    (represents : Represents Numbered handle.image next child) :
    Stands handle next (opened + (arity + token.arity)) (grown later word token child) := by
  refine ⟨represents, ?_, back.indexStack.trans stands.indexStack, ?_⟩
  · rw [← Nat.add_assoc]
    exact (stands.sound.entry member).2
  · rw [env_grown solving back]
    exact stands.terms

/-- What the engine does with a variable that grows from a node on, with enough fuel. -/
def GrowSpec (handle : IndexHandle) (resultCb : List Nat → QueryReturn) (height : Nat) (node : TmpIndexNode) : Prop :=
  ∀ (fuel arity opened : Nat) (ctxt : QueryCtxt) (word : EncodedFormula),
    (if arity = 0 then node.height < height else node.height ≤ height) →
    3 * node.height + (if arity = 0 then 5 else 3) ≤ fuel → Stands handle node (opened + arity) ctxt →
    Closes queryArity opened ctxt.queryStack → Solving ctxt arity word →
    Explores handle resultCb ctxt.currIndexInode ctxt.calls
      (grownHits (envOf ctxt) ctxt.solvingVarId ctxt.queryStack word arity node) (RestoredVar ctxt)
      (matchVarToIndex handle.image resultCb fuel arity ctxt)

/-- Every round of the loop explores behind the first child, and restores the context of the loop. -/
theorem GrowSpec.round {height fuel type off child : Nat} {node next : TmpIndexNode} {token : EncodedToken}
    (spec : GrowSpec handle resultCb height next) (deep : next.height < height) (enough : 3 * next.height + 3 ≤ fuel)
    (stands : Stands handle node (opened + (arity + 1)) ctxt) (closes : Closes queryArity opened ctxt.queryStack)
    (solving : Solving ctxt (arity + 1) word) (member : (token, next) ∈ node.children)
    (first : entryToken handle.image ctxt.currIndexInode (decide (type = longInternalNode)) 0 = some token)
    (offset : entryOff handle.image ctxt.currIndexInode (decide (type = longInternalNode)) 0 = some off)
    (converted : IndexHandle.relOff2addr ctxt.currIndexInode off = some child)
    (represents : Represents Numbered handle.image next child)
    (reached : reach handle [token] ctxt.currIndexInode = some child) {later : QueryCtxt}
    (back : RestoredVar ctxt later) :
    Explores handle resultCb ctxt.currIndexInode later.calls ((grownHits (envOf ctxt) ctxt.solvingVarId ctxt.queryStack
        (word ++ [token]) (arity + token.arity) next).map ([token] ++ ·)) (RestoredVar ctxt)
      (growRound handle.image resultCb (fuel + 2) (arity + 1) ctxt.solvingVarId ctxt.currIndexInode type later) := by
  have constant := (stands.sound.entry member).1
  refine growRound_spec solving constant first offset converted reached (fun later back fits => ?_) back
  have solvingLater := solving.restored back
  have env := env_grown solving back token child
  have deepNext : if arity + token.arity = 0 then next.height < height else next.height ≤ height := by
    split <;> omega
  have enoughNext : 3 * next.height + (if arity + token.arity = 0 then 5 else 3) ≤ fuel + 2 := by
    split <;> omega
  have query : (grown later word token child).queryStack = ctxt.queryStack := back.queryStack
  have explores := spec _ _ _ _ _ deepNext enoughNext (stands.grow solving back member represents)
    (by rw [query]; exact closes) (solvingLater.push constant fits child)
  rw [env, query] at explores
  rw [← back.solvingVarId]
  exact explores

/-- **A variable grows along the index.** -/
theorem matchVarToIndex_spec {height : Nat} (spec : ProcessSpec handle resultCb height) {node : TmpIndexNode} :
    GrowSpec handle resultCb height node := by
  induction node with
  | mk leaf children ih =>
    intro fuel arity opened ctxt word deep enough stands closes solving
    cases arity with
    | zero =>
      rw [if_pos rfl] at deep enough
      obtain ⟨fuel, rfl⟩ : ∃ more, fuel = more + 1 := ⟨fuel - 1, by omega⟩
      rw [grownHits_zero]
      exact matchVarToIndex_zero spec deep (by omega) stands closes solving
    | succ arity =>
      rw [if_neg (Nat.succ_ne_zero arity)] at deep enough
      obtain ⟨⟨token, next⟩, rest, entries⟩ := List.exists_cons_of_ne_nil stands.sound.shape.children_ne_nil
      have member : (token, next) ∈ (mk leaf children).children := by rw [entries]; exact List.mem_cons_self
      have lower : next.height < (mk leaf children).height := height_child member
      obtain ⟨type, off, child, size, few, typed, first, offset, converted, represents, reached⟩ :=
        firstEntry_eq stands.represents stands.sound.shape entries
      obtain ⟨fuel, rfl⟩ : ∃ more, fuel = more + 3 := ⟨fuel - 3, by omega⟩
      -- every round is at a node further down
      have round : ∀ (_ : Nat) later, RestoredVar ctxt later → _ := fun _ later back =>
        (ih (token, next) member).round (lt_of_lt_of_le lower deep) (by omega : 3 * next.height + 3 ≤ fuel) stands closes
          solving member first offset converted represents reached back
      rw [matchVarToIndex_succ_eq _ _ _ stands.indexStack, varAt]
      split
      · rw [size, typed, grownHits_succ _ _ _ _ _ entries]
        show Explores _ _ _ _ _ _ (Engine.forEach _ (List.range ((rest.length + 1) % 2 ^ 32)) ctxt)
        rw [Nat.mod_eq_of_lt (by omega)]
        have rounds := Explores.forEach round (List.range (rest.length + 1)) (RestoredVar.refl ctxt)
        rw [List.length_range] at rounds
        exact rounds
      · exact Or.inl rfl

/-- A variable that begins to grow. -/
abbrev beginning (ctxt : QueryCtxt) (id : Nat) (rest : EncodedFormula) : QueryCtxt :=
  setTokens { ctxt with queryStack := rest, solvingVarId := id } id []

theorem Solving.beginning {id : Nat} (unsolved : (ctxt.vars id).solved = false) (rest : EncodedFormula) :
    Solving (beginning ctxt id rest) 1 [] := by
  refine ⟨?_, fun more closes => closes, nofun, Nat.zero_le _, le_refl _⟩
  show Function.update _ _ _ id = _
  rw [Function.update_self]
  exact congrArg (VarInstantiation.mk · []) unsolved

theorem env_beginning {id : Nat} (unsolved : (ctxt.vars id).solved = false) (rest : EncodedFormula) :
    envOf (Engine.beginning ctxt id rest) = envOf ctxt := envOf_setTokens unsolved []

theorem Stands.beginning {node : TmpIndexNode} (stands : Stands handle node opened ctxt) {id : Nat}
    (unsolved : (ctxt.vars id).solved = false) (rest : EncodedFormula) :
    Stands handle node opened (Engine.beginning ctxt id rest) :=
  ⟨stands.represents, stands.sound, stands.indexStack, by rw [env_beginning unsolved]; exact stands.terms⟩

/-- **A variable of the query that is not solved** grows along the index. -/
theorem processQueryToken_unsolved {fuel height : Nat} {node : TmpIndexNode}
    (spec : ProcessSpec handle resultCb height) (deep : node.height ≤ height)
    (enough : 3 * node.height + 3 ≤ fuel) {token : EncodedToken} {rest : EncodedFormula}
    (stack : ctxt.queryStack = token :: rest) (isVar : token.isVar = true)
    (unsolved : (ctxt.vars token.id).solved = false) (stands : Stands handle node (opened + 1) ctxt)
    (closes : Closes queryArity opened rest) :
    Explores handle resultCb ctxt.currIndexInode ctxt.calls (hits (envOf ctxt) (token :: rest) node) (Restored ctxt)
      (processQueryToken handle.image resultCb (fuel + 1) ctxt) := by
  have free : envOf ctxt token.id = none := if_neg (by rw [unsolved]; exact Bool.false_ne_true)
  have words : hits (envOf ctxt) (token :: rest) node = grownHits (envOf ctxt) token.id rest [] 1 node := by
    rw [hits, if_pos isVar, free]
    rfl
  have solving := Solving.beginning unsolved rest
  have env := env_beginning unsolved rest
  have standing := stands.beginning unsolved rest
  rw [processQueryToken_var_eq handle.image _ stack isVar, varAt, words]
  split
  · show Explores _ _ _ _ _ _ (ite _ _ _)
    rw [if_neg (by rw [unsolved]; exact Bool.false_ne_true)]
    have deepHere : if 1 = 0 then node.height < height else node.height ≤ height := by simpa using deep
    have enoughHere : 3 * node.height + (if 1 = 0 then 5 else 3) ≤ fuel := by simpa using enough
    have explores := matchVarToIndex_spec spec _ _ _ _ _ deepHere enoughHere standing closes solving
    rw [env] at explores
    refine explores.restore fun later back => ?_
    rcases revertQuery_eq token later with failed | pushed
    · exact Or.inl failed
    · refine Or.inr ⟨_, pushed, rfl, ?_, back.currIndexInode, back.indexStack, back.env.trans env⟩
      exact (congrArg (token :: ·) back.queryStack).trans stack.symm
  · exact Or.inl rfl

/-- **The engine explores `hits`**, from every context that is ready. -/
theorem processQueryToken_spec (handle : IndexHandle) (resultCb : List Nat → QueryReturn) (height : Nat) :
    ProcessSpec handle resultCb height := by
  induction height with
  | zero => exact fun _ _ _ _ deep => absurd deep (Nat.not_lt_zero _)
  | succ height spec =>
    intro fuel ctxt opened node deep enough ready
    have deep : node.height ≤ height := Nat.le_of_lt_succ deep
    obtain ⟨fuel, rfl⟩ : ∃ more, fuel = more + 2 := ⟨fuel - 2, by omega⟩
    have closes := ready.closes
    have stands := ready.toStands
    cases stack : ctxt.queryStack with
    | nil =>
      -- the query is used up where no subterm is open: at a leaf
      rw [stack] at closes
      cases opened with
      | succ opened => exact (not_closes_nil closes).elim
      | zero =>
        obtain ⟨leaf, isLeaf⟩ : ∃ leaf, node.leaf = some leaf := by
          cases stands.sound.shape with
          | leaf leaf => exact ⟨leaf, rfl⟩
        have type := nodeType_of_leaf (stands.represents.leaf isLeaf).1
        rw [processQueryToken, stack, hits]
        simp only [type, read]
        refine Or.inr ⟨_, _, [ctxt.currIndexInode], [[]], [], rfl, rfl, rfl, .cons rfl .nil, fun _ => rfl,
          fun _ => ⟨rfl, ?_⟩⟩
        exact ⟨stack.symm ▸ rfl, rfl, rfl, rfl⟩
    | cons token rest =>
      rw [stack] at closes
      cases opened with
      | zero => exact closes.elim
      | succ opened =>
        rw [closes_cons] at closes
        cases isVar : token.isVar with
        | false =>
          rw [queryArity_of_constant isVar] at closes
          exact processQueryToken_constant spec deep (by omega) stack isVar stands closes
        | true =>
          rw [queryArity_of_var isVar, Nat.add_zero] at closes
          cases solved : (ctxt.vars token.id).solved with
          | true => exact processQueryToken_solved spec deep (by omega) stack isVar solved stands closes
          | false => exact processQueryToken_unsolved spec deep (by omega) stack isVar solved stands closes

end Variables

end Engine

end MathWebSearch
