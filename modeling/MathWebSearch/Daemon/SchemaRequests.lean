/-
**Answers to schema requests** (`SchemaQueryHandler::handleQuery`).

The trees of a request are encoded into a dictionary of their own. Trees that are rejected are left out, and the schemata
refer to the others by their numbers among these. The variables of a schema are resolved by a second walk, over the tree
of its first formula.

* `encodings_encodeTokens`, `map_encodeTokens` — what the loop over the trees leaves for the engine.
* `resolved` — the subtrees that the second walk comes to; `getSubstitutions_readAt` says so.
* `Aligned` — the list of substitutions has the `xref`s of what stands for the variables.
* `handleQuery_shared` — the schemata of a request, for both heuristics.
* `handleQuery_absolute` — **the answer to a request** in absolute mode.
* `handleQuery_ids_iff` — **when the numbers are positions in the request**.
-/

import MathWebSearch.Daemon.SchemaQueryHandler
import MathWebSearch.Index.IndexedTrees
import MathWebSearch.Query.RelativeSchemata

namespace MathWebSearch

open CmmlToken ExpressionEncoder SchemaEngine PartialTree IdDictionary

namespace SchemaQueryHandler

/-! ### The trees that are encoded -/

section Loop

variable {D : Doubles}

/-- A tree as a request may have it. -/
structure Requested (tree : CmmlToken) : Prop where
  free : tree.VariableFree
  plain : tree.Plain
  countable : Countable tree
  size : (subtrees tree).length < 2 ^ 32

/-- The dictionary behind the loop has grown by `put` calls. -/
theorem dictionary_encodeTokens {tokens : List CmmlToken} (free : ∀ token ∈ tokens, token.VariableFree) :
    ∀ encoder, ∃ puts, (encodeTokens D ⟨false⟩ encoder tokens).1.meaningDictionary =
      (putAll encoder.meaningDictionary puts).1 := by
  induction tokens with
  | nil => exact fun encoder => ⟨[], rfl⟩
  | cons token rest ih =>
    intro encoder
    rw [List.forall_mem_cons] at free
    obtain ⟨puts, behind⟩ := ih free.2 (encode (D := D) .harvest encoder ⟨false⟩ (.root token) none).1.encoder
    have here := @meaningDictionary_encode D ⟨false⟩ encoder (.root token) (constants_of_variableFree free.1)
    refine ⟨namesOf ⟨false⟩ encoder ((dfs [.root token]).takeWhile accepted) ++ puts, ?_⟩
    show (encodeTokens D ⟨false⟩ _ rest).1.meaningDictionary = _
    rw [behind, here, putAll_append]

/-- **What the loop leaves**: encodings over the dictionary at the end, of the trees that are accepted. -/
theorem encodeTokens_spec {last : MeaningDictionary} (few : last.map.length < 2 ^ 24 - 161) {tokens : List CmmlToken}
    (requested : ∀ token ∈ tokens, Requested token) : ∀ encoder,
    (∃ puts, encoder.meaningDictionary = (putAll empty puts).1) →
    (∃ puts, last = (putAll (encodeTokens D ⟨false⟩ encoder tokens).1.meaningDictionary puts).1) →
      (∀ pair ∈ (encodeTokens D ⟨false⟩ encoder tokens).2, Encoding D last pair) ∧
        (encodeTokens D ⟨false⟩ encoder tokens).2.map Prod.snd = tokens.filter narrow := by
  induction tokens with
  | nil => exact fun encoder _ _ => ⟨fun pair member => absurd member List.not_mem_nil, rfl⟩
  | cons token rest ih =>
    intro encoder before behind
    rw [List.forall_mem_cons] at requested
    obtain ⟨here, later⟩ := requested
    have constants := constants_of_variableFree here.free
    have dictionary := @meaningDictionary_encode D ⟨false⟩ encoder (.root token) constants
    generalize encodes : encode (D := D) .harvest encoder ⟨false⟩ (.root token) none = result at dictionary
    have unfolds : encodeTokens D ⟨false⟩ encoder (token :: rest) =
        ((encodeTokens D ⟨false⟩ result.1.encoder rest).1,
          if result.2 = 0 then (result.1.encodedFormula, token) :: (encodeTokens D ⟨false⟩ result.1.encoder rest).2
          else (encodeTokens D ⟨false⟩ result.1.encoder rest).2) := by rw [encodeTokens, encodes]
    rw [unfolds] at behind ⊢
    obtain ⟨puts, start⟩ := before
    obtain ⟨puts', finish⟩ := behind
    obtain ⟨puts'', middle⟩ := @dictionary_encodeTokens D rest (fun token member => (later token member).free) result.1.encoder
    have putting : Putting D ⟨false⟩ encoder (.root token) last :=
      ⟨⟨puts, start⟩, puts'' ++ puts', by rw [encodes, finish, middle, putAll_append]⟩
    obtain ⟨-, -, coded⟩ := putting.codes constants few
    have returns := coded.returns
    rw [encodes, all_accepted_iff here.free here.countable, ← narrow_iff] at returns
    obtain ⟨encodings, trees⟩ := ih later result.1.encoder ⟨_, by rw [dictionary, start, putAll_append]⟩ ⟨puts', finish⟩
    by_cases fine : result.2 = 0
    · rw [if_pos fine, List.map_cons, List.filter_cons_of_pos (returns.mp fine), trees]
      refine ⟨List.forall_mem_cons.mpr ⟨⟨encoder, putting, ?_, ?_⟩, encodings⟩, rfl⟩
      · rw [encodes]
        exact fine
      · rw [encodes]
    · rw [if_neg fine, List.filter_cons_of_neg fun isNarrow => fine (returns.mpr isNarrow), trees]
      exact ⟨encodings, rfl⟩

end Loop

/-! ### The second walk -/

/-- What the second walk pushes for a variable. -/
def xrefs (token : CmmlToken) : List Str :=
  if getAttribute token xrefAttr = [] then [] else [getAttribute token xrefAttr]

theorem getSubstitutions_eq (token schemaRoot : CmmlToken) : getSubstitutions token schemaRoot =
    if schemaRoot.getTag = qvarTag then xrefs token
    else if token.getChildNodes.length ≠ schemaRoot.getChildNodes.length then []
    else if token.getTag ≠ schemaRoot.getTag then []
    else getSubstitutionsAll (token.getTag = applyTag) token.getChildNodes schemaRoot.getChildNodes := by
  cases token
  rw [getSubstitutions]
  rfl

section Walk

variable (depth : Nat)

mutual

/-- The subtrees that are dropped and that the second walk comes to, in pre-order. -/
def resolved (level : Nat) : CmmlToken → List CmmlToken
  | .mk tag attributes text children =>
    resolvedAll (level + 1) (headed (.mk tag attributes text children)) (tag = applyTag) children

/-- Those among child nodes; the first child of an `apply` is skipped. -/
def resolvedAll (level : Nat) (first skip : Bool) : List CmmlToken → List CmmlToken
  | [] => []
  | child :: rest =>
    (if skip = true then [] else if level < depth ∨ first = true then resolved level child else [child]) ++
      resolvedAll level false false rest

end

variable {depth}

theorem resolved_eq (level : Nat) (tree : CmmlToken) : resolved depth level tree =
    resolvedAll depth (level + 1) (headed tree) (tree.getTag = applyTag) tree.getChildNodes := by
  cases tree
  rw [resolved]
  rfl

theorem getSubstitutionsAll_readAll {level : Nat} {children : List CmmlToken}
    (each : ∀ child ∈ children, ∀ number,
      getSubstitutions child (readAt depth level child number).1.toCmml = (resolved depth level child).flatMap xrefs) :
    ∀ (first skip : Bool) (number : Nat),
      getSubstitutionsAll skip children ((readAll depth level first children number).1.map SchemaTree.toCmml) =
        (resolvedAll depth level first skip children).flatMap xrefs := by
  induction children with
  | nil =>
    intro first skip number
    rw [readAll_nil, resolvedAll]
    rfl
  | cons child rest ih =>
    intro first skip number
    rw [List.forall_mem_cons] at each
    rw [readAll_cons, List.map_cons, getSubstitutionsAll, resolvedAll, List.flatMap_append, ih each.2, readChild]
    refine congrArg (· ++ _) ?_
    split_ifs with skips keep
    · rfl
    · exact each.1 number
    · rw [getSubstitutions_eq, toCmml_qvar, getTag_mk, if_pos rfl, List.flatMap_singleton]

/-- **The second walk** over a tree and what was read back of it. -/
theorem getSubstitutions_readAt (tree : CmmlToken) : tree.Plain → tree.VariableFree → ∀ level number,
    getSubstitutions tree (readAt depth level tree number).1.toCmml = (resolved depth level tree).flatMap xrefs := by
  induction tree with
  | mk tag attributes text children ih =>
    intro plain free level number
    have constant := free _ (mem_subtrees_self _)
    have here := plain _ (mem_subtrees_self _)
    have notVar : tag ≠ qvarTag := getTag_ne_qvarTag constant
    rw [toCmml_readAt here, getSubstitutions_eq, getTag_mk, getChildNodes_mk, getTag_mk, getChildNodes_mk, if_neg notVar,
      List.length_map,
      length_readAll, if_neg (fun different => different rfl), if_neg (fun different => different rfl), resolved_eq,
      getChildNodes_mk, getTag_mk]
    exact getSubstitutionsAll_readAll
      (fun child member => ih child member (plain.child member) (free.child member) (level + 1)) _ _ number

theorem droppedAll_of_keeps {level : Nat} {children : List CmmlToken}
    (each : ∀ child ∈ children, dropped depth level child = []) :
    ∀ first, (children ≠ [] → level < depth ∨ (first = true ∧ children.length = 1)) →
      droppedAll depth level first children = [] := by
  induction children with
  | nil => intro first _; rw [droppedAll]
  | cons child rest ih =>
    intro first keeps
    rw [List.forall_mem_cons] at each
    have here := keeps (List.cons_ne_nil _ _)
    rw [droppedAll_cons, droppedChild, if_pos (here.imp_right And.left), each.1, List.nil_append]
    refine ih each.2 false fun some => .inl (here.resolve_right fun single => some ?_)
    exact List.eq_nil_of_length_eq_zero (Nat.succ.inj single.2)

/-- Where nothing is cut, nothing is dropped. -/
theorem dropped_of_intact (tree : CmmlToken) : ∀ level, Intact headed depth level tree.skeleton → dropped depth level tree = [] := by
  induction tree with
  | mk tag attributes text children ih =>
    intro level intact
    rw [skeleton_eq, intact_node_iff, getChildNodes_mk, List.length_map, List.forall_mem_map] at intact
    obtain ⟨keeps, below⟩ := intact
    rw [dropped_eq, getChildNodes_mk]
    refine droppedAll_of_keeps (fun child member => ih child member (level + 1) (below child member)) _ fun some => ?_
    exact keeps fun empty => some (List.map_eq_nil_iff.mp empty)

theorem resolvedAll_of_kept {level : Nat} {children : List CmmlToken}
    (each : ∀ child ∈ children, level < depth → resolved depth level child = dropped depth level child) :
    resolvedAll depth level false false children = droppedAll depth level false children := by
  induction children with
  | nil => rw [resolvedAll, droppedAll]
  | cons child rest ih =>
    rw [List.forall_mem_cons] at each
    rw [resolvedAll, droppedAll, ih each.2, if_neg Bool.false_ne_true]
    refine congrArg (· ++ _) ?_
    by_cases above : level < depth
    · rw [if_pos (.inl above), if_pos (.inl above), each.1 above]
    · have notKept : ¬(level < depth ∨ false = true) := fun either => either.elim above Bool.false_ne_true
      rw [if_neg notKept, if_neg notKept]

/-- **Where heads fit**, the second walk comes to everything that was dropped. -/
theorem resolved_of_headsFit (tree : CmmlToken) : tree.Plain → ∀ level, HeadsFit headed depth level tree.skeleton →
    resolved depth level tree = dropped depth level tree := by
  induction tree with
  | mk tag attributes text children ih =>
    intro plain level fit
    have kept : ∀ child ∈ children, level + 1 < depth → resolved depth (level + 1) child = dropped depth (level + 1) child := by
      intro child member above
      rw [skeleton_eq] at fit
      exact ih child member (plain.child member) (level + 1) (fit.children above _ (List.mem_map_of_mem member))
    rw [resolved_eq, dropped_eq, getChildNodes_mk, getTag_mk]
    cases children with
    | nil => rw [resolvedAll, droppedAll]
    | cons child rest =>
      have later := resolvedAll_of_kept (fun other member => kept other (List.mem_cons_of_mem child member))
      rw [resolvedAll, droppedAll, later]
      refine congrArg (· ++ _) ?_
      rw [skeleton_eq] at fit
      split_ifs with isApply keep
      · -- the head of an `apply` is intact
        have isHead : headed (.mk tag attributes text (child :: rest)) = true := by
          rw [headed_eq (plain _ (mem_subtrees_self _)), getTag_mk, of_decide_eq_true isApply]
          decide
        exact (dropped_of_intact child (level + 1) (fit.head isHead _ rfl)).symm
      · exact absurd (.inr (by
          rw [headed_eq (plain _ (mem_subtrees_self _)), getTag_mk, of_decide_eq_true isApply]; decide)) keep
      · rename_i keep
        refine ih child List.mem_cons_self (plain.child List.mem_cons_self) (level + 1) (fit.kept List.mem_cons_self ?_)
        exact keep.imp_right fun isHead => ⟨isHead, rfl⟩
      · rfl

theorem resolvedAll_sublist {level : Nat} {children : List CmmlToken}
    (each : ∀ child ∈ children, (resolved depth level child).Sublist (dropped depth level child)) : ∀ first skip,
    (resolvedAll depth level first skip children).Sublist (droppedAll depth level first children) := by
  induction children with
  | nil => intro first skip; rw [resolvedAll]; exact List.nil_sublist _
  | cons child rest ih =>
    intro first skip
    rw [List.forall_mem_cons] at each
    rw [resolvedAll, droppedAll_cons, droppedChild]
    refine List.Sublist.append ?_ (ih each.2 false false)
    split_ifs
    · exact List.nil_sublist _
    · exact List.nil_sublist _
    · exact each.1
    · exact List.Sublist.refl _

/-- The second walk comes to nothing else, and to nothing twice. -/
theorem resolved_sublist (tree : CmmlToken) : ∀ level, (resolved depth level tree).Sublist (dropped depth level tree) := by
  induction tree with
  | mk tag attributes text children ih =>
    intro level
    rw [resolved_eq, dropped_eq]
    exact resolvedAll_sublist (fun child member => ih child member (level + 1)) _ _

end Walk

/-! ### Substitutions -/

/-- The tree is the schema with subtrees in place of the variables, and the list has the `xref` of each of these, in the
order of the variables. -/
def Aligned (root tree : CmmlToken) (subst : List Str) : Prop :=
  ∃ assignment : Str → CmmlToken, (∀ name, assignment name ∈ subtrees tree) ∧
    (substitute assignment root).equals tree = true ∧
    subst = (qvarNames root).map fun name => getAttribute (assignment name) xrefAttr

/-- The second walk comes to everything that was dropped. -/
def ResolvesAll (depth : Nat) (tree : CmmlToken) : Prop := depth = 0 ∨ resolved depth 0 tree = dropped depth 0 tree

/-- Every node has an `xref`. -/
def Referenced (tree : CmmlToken) : Prop := ∀ inner ∈ subtrees tree, getAttribute inner xrefAttr ≠ []

theorem flatMap_xrefs {trees : List CmmlToken} (some : ∀ tree ∈ trees, getAttribute tree xrefAttr ≠ []) :
    trees.flatMap xrefs = trees.map fun tree => getAttribute tree xrefAttr := by
  induction trees with
  | nil => rfl
  | cons tree rest ih =>
    rw [List.forall_mem_cons] at some
    rw [List.flatMap_cons, List.map_cons, ih some.2, xrefs, if_neg some.1, List.singleton_append]

/-- What stands for the variables in their order. -/
theorem map_assigns {assignment : Str → CmmlToken} {depth : Nat} (positive : depth ≠ 0) {trees : List CmmlToken}
    (assigns : Assigns assignment 1 trees) : (qvarNumbers depth trees.length).map assignment = trees := by
  rw [qvarNumbers, if_neg positive, List.map_map]
  refine List.ext_getElem (by rw [List.length_map, List.length_range']) fun place low high => ?_
  rw [List.getElem_map, List.getElem_range', Nat.one_mul]
  exact assigns place _ (List.getElem?_eq_getElem high)

/-- **The substitutions of a schema line up with its variables** if the second walk comes to everything that was dropped. -/
theorem aligned_iff {tree : CmmlToken} (plain : tree.Plain) (free : tree.VariableFree)
    (size : (subtrees tree).length < 2 ^ 32) (referenced : Referenced tree) (depth : Nat) :
    Aligned (schemaOf depth tree).toCmml tree (getSubstitutions tree (schemaOf depth tree).toCmml) ↔ ResolvesAll depth tree := by
  by_cases zero : depth = 0
  · subst zero
    refine iff_of_true ⟨fun _ => tree, fun _ => mem_subtrees_self tree, ?_, ?_⟩ (.inl rfl)
    · rw [toCmml_schemaOf_zero, substitute_var (isVar_qvar 0)]
      exact free.equals_self
    · rw [toCmml_schemaOf_zero, qvarNames_qvar, getSubstitutions_eq, toCmml_qvar, getTag_mk, if_pos rfl, xrefs,
        if_neg (referenced tree (mem_subtrees_self tree))]
      rfl
  · have names := qvarNames_schemaOf plain free depth
    have reached : ∀ inner ∈ dropped depth 0 tree, getAttribute inner xrefAttr ≠ [] :=
      fun inner member => referenced inner (dropped_subset tree 0 member)
    have pushed : getSubstitutions tree (schemaOf depth tree).toCmml =
        (resolved depth 0 tree).map fun inner => getAttribute inner xrefAttr := by
      rw [schemaOf_pos zero, getSubstitutions_readAt tree plain free 0 1]
      exact flatMap_xrefs fun inner member => reached inner ((resolved_sublist tree 0).subset member)
    rw [pushed]
    constructor
    · rintro ⟨assignment, -, -, same⟩
      have lengths := congrArg List.length same
      rw [List.length_map, List.length_map, names, length_qvarNumbers, if_neg zero] at lengths
      exact .inr ((resolved_sublist tree 0).eq_of_length lengths)
    · intro all
      have few : (dropped depth 0 tree).length < 2 ^ 32 := lt_trans (length_dropped tree 0) size
      obtain ⟨assignment, values, assigns⟩ := exists_assigns few tree
      refine ⟨assignment, fun name => ?_, ?_, ?_⟩
      · rcases values name with same | among
        · rw [same]
          exact mem_subtrees_self tree
        · exact dropped_subset tree 0 among
      · rw [schemaOf_pos zero]
        exact equals_substitute tree plain free 0 1 assigns
      · have stands := map_assigns zero assigns
        rw [names, all.resolve_left zero]
        conv_lhs => rw [← stands, List.map_map]
        rfl

/-! ### Answers -/

section Answers

variable {D : Doubles} {query : Query}

theorem exists_of_forall₂ {α β : Type} {R : α → β → Prop} {items : List α} {values : List β}
    (related : List.Forall₂ R items values) {value : β} (member : value ∈ values) : ∃ item ∈ items, R item value := by
  induction related with
  | nil => exact absurd member List.not_mem_nil
  | cons here _ ih =>
    rcases List.mem_cons.mp member with rfl | later
    · exact ⟨_, List.mem_cons_self, here⟩
    · obtain ⟨item, among, related⟩ := ih later
      exact ⟨item, List.mem_cons_of_mem _ among, related⟩

/-- The schemata of an answer are those of the engine, with substitutions. -/
theorem handleQuery_eq {order : Arrangement} {self : SchemaQueryHandler} {result : SchemaAnswset}
    (got : (self.engine D query).1.getSchemata order (self.engine D query).2 (castUnsigned query.attrResultMaxSize)
      query.maxDepth = .ok result)
    (each : ∀ sch ∈ result.schemata, ∃ representative tree, sch.formulae.head? = some representative ∧
      query.tokens[representative]? = some tree) :
    ∃ answer, self.handleQuery D order query = .ok answer ∧ answer.total = result.total ∧
      List.Forall₂ (fun sch sch' => ∃ representative tree, sch.formulae.head? = some representative ∧
        query.tokens[representative]? = some tree ∧ sch' = { sch with subst := getSubstitutions tree sch.root })
        result.schemata answer.schemata := by
  have resolves : ∀ sch ∈ result.schemata, ∃ sch', withSubst query.tokens sch = .ok sch' ∧
      ∃ representative tree, sch.formulae.head? = some representative ∧ query.tokens[representative]? = some tree ∧
        sch' = { sch with subst := getSubstitutions tree sch.root } := by
    intro sch member
    obtain ⟨representative, tree, first, found⟩ := each sch member
    refine ⟨_, ?_, representative, tree, first, found, rfl⟩
    rw [withSubst, first, Option.bind_some, found]
  obtain ⟨schemata, all, related⟩ := mapM_eq_ok resolves
  refine ⟨⟨schemata, result.total⟩, ?_, rfl, related⟩
  rw [handleQuery, got]
  simp only [bind, Except.bind]
  rw [all]
  rfl

/-- The dictionary of a request. -/
abbrev namesOfRequest (D : Doubles) (tokens : List CmmlToken) : MeaningDictionary :=
  (encodeTokens D ⟨false⟩ (.new empty) tokens).1.meaningDictionary

/-- The formulae that the engine gets. -/
theorem encodings_request (requested : ∀ token ∈ query.tokens, Requested token)
    (few : (namesOfRequest D query.tokens).map.length < 2 ^ 24 - 161) :
    (∀ pair ∈ (encodeTokens D ⟨false⟩ (.new empty) query.tokens).2,
        Encoding D (namesOfRequest D query.tokens) pair ∧ Narrowed pair.2 ∧ Requested pair.2) ∧
      (encodeTokens D ⟨false⟩ (.new empty) query.tokens).2.map Prod.snd = query.tokens.filter narrow := by
  obtain ⟨encodings, trees⟩ := encodeTokens_spec (D := D) few requested (.new empty) ⟨[], rfl⟩ ⟨[], rfl⟩
  refine ⟨fun pair member => ?_, trees⟩
  have among : pair.2 ∈ query.tokens.filter narrow := trees ▸ List.mem_map_of_mem member
  obtain ⟨inside, isNarrow⟩ := List.mem_filter.mp among
  exact ⟨encodings pair member, ⟨(requested _ inside).free, narrow_iff.mp isNarrow⟩, requested _ inside⟩

/-- The formulae of a request, with their trees. -/
abbrev formulaeOfRequest (D : Doubles) (tokens : List CmmlToken) : List (EncodedFormula × CmmlToken) :=
  (encodeTokens D ⟨false⟩ (.new empty) tokens).2

/-- The formulae of a request are numbered like the trees that are accepted. -/
theorem getElem?_formulaeOfRequest (requested : ∀ token ∈ query.tokens, Requested token)
    (few : (namesOfRequest D query.tokens).map.length < 2 ^ 24 - 161) (i : Nat) :
    (query.tokens.filter narrow)[i]? = ((formulaeOfRequest D query.tokens)[i]?).map Prod.snd := by
  rw [← (encodings_request requested few).2, List.getElem?_map]

theorem length_formulaeOfRequest (requested : ∀ token ∈ query.tokens, Requested token)
    (few : (namesOfRequest D query.tokens).map.length < 2 ^ 24 - 161) :
    (formulaeOfRequest D query.tokens).length = (query.tokens.filter narrow).length := by
  rw [← (encodings_request requested few).2, List.length_map]

/-- The formulae of a request can be read back. -/
theorem read_formulaeOfRequest (requested : ∀ token ∈ query.tokens, Requested token)
    (few : (namesOfRequest D query.tokens).map.length < 2 ^ 24 - 161) :
    ∀ pair ∈ formulaeOfRequest D query.tokens, Read D (namesOfRequest D query.tokens) pair := fun pair member =>
  ((encodings_request requested few).1 pair member).1.read ((encodings_request requested few).1 pair member).2.1 few

/-- What the handler makes of a schema: it adds the substitutions, from the tree of the request with its first number. -/
def Resolved (query : Query) (sch sch' : ExprSchema) : Prop :=
  ∃ representative tree, sch.formulae.head? = some representative ∧ query.tokens[representative]? = some tree ∧
    sch' = { sch with subst := getSubstitutions tree sch.root }

/-- **Every request is answered** with the schemata of its engine, for both heuristics and without renaming. -/
theorem handleQuery_shared (requested : ∀ token ∈ query.tokens, Requested token)
    (few : (namesOfRequest D query.tokens).map.length < 2 ^ 24 - 161) (small : query.tokens.length ≤ 2 ^ 32)
    (order : Arrangement) :
    ∃ result answer, Shared ⟨.new (namesOfRequest D query.tokens), cutoffHeuristic query.cutoffMode⟩
        (castUnsigned query.attrResultMaxSize) query.maxDepth (formulaeOfRequest D query.tokens) result ∧
      Rooted ⟨.new (namesOfRequest D query.tokens), cutoffHeuristic query.cutoffMode⟩ query.maxDepth
        (formulaeOfRequest D query.tokens) result ∧
      (∀ sch ∈ result.schemata, ∀ i ∈ sch.formulae, i < (formulaeOfRequest D query.tokens).length) ∧
      handleQuery D ⟨⟨false⟩⟩ order query = .ok answer ∧ answer.total = result.total ∧
      List.Forall₂ (Resolved query) result.schemata answer.schemata := by
  have spelt : (⟨.new (namesOfRequest D query.tokens), cutoffHeuristic query.cutoffMode⟩ : SchemaEngine).SpeltAll
      (code (namesIn (namesOfRequest D query.tokens))) (formulaeOfRequest D query.tokens) := fun pair member =>
    (read_formulaeOfRequest requested few pair member).spelt _
  have fewer : (formulaeOfRequest D query.tokens).length ≤ query.tokens.length :=
    length_formulaeOfRequest requested few ▸ List.length_filter_le _ _
  obtain ⟨result, got, shared, rooted⟩ := @getSchemata_shared _ _ _ query.maxDepth spelt (fewer.trans small) order
    (castUnsigned query.attrResultMaxSize)
  have low := index_lt spelt (fewer.trans small) got
  have firsts : ∀ sch ∈ result.schemata, ∃ representative tree, sch.formulae.head? = some representative ∧
      query.tokens[representative]? = some tree := by
    intro sch member
    obtain ⟨-, some⟩ := shared.coverage sch member
    have inside := low sch member _ (List.head_mem some)
    exact ⟨_, _, List.head?_eq_some_head some, List.getElem?_eq_getElem (lt_of_lt_of_le inside fewer)⟩
  obtain ⟨answer, answered, total, related⟩ := @handleQuery_eq D query order ⟨⟨false⟩⟩ result got firsts
  exact ⟨result, answer, shared, rooted, low, answered, total, related⟩

/-- What an answer says of its schemata, in absolute mode: each has formulae, which are numbered among the trees that are
accepted, and as many as it says; its root is what is read back of any of them; those of which the same nodes are left
share it; and its substitutions are those of the tree with the first of these numbers in the request. -/
structure Answers (query : Query) (answer : SchemaAnswset) : Prop where
  coverage : ∀ sch ∈ answer.schemata, sch.coverage = sch.formulae.length
  listed : ∀ sch ∈ answer.schemata, ∀ i ∈ sch.formulae, ∃ tree, (query.tokens.filter narrow)[i]? = some tree ∧
    sch.root = (schemaOf query.maxDepth tree).toCmml
  together : ∀ sch ∈ answer.schemata, ∀ i j : Nat, ∀ tree tree', (query.tokens.filter narrow)[i]? = some tree →
    (query.tokens.filter narrow)[j]? = some tree' → i ∈ sch.formulae → (j ∈ sch.formulae ↔
      word (keptSymbols query.maxDepth tree') = word (keptSymbols query.maxDepth tree))
  resolves : ∀ sch ∈ answer.schemata, ∃ representative tree, sch.formulae.head? = some representative ∧
    query.tokens[representative]? = some tree ∧ sch.subst = getSubstitutions tree sch.root
  partition : castUnsigned query.attrResultMaxSize = 0 →
    (answer.schemata.flatMap ExprSchema.formulae).Perm (List.range (query.tokens.filter narrow).length)

/-- Resolving the variables changes the substitutions only. -/
theorem map_of_resolved {β : Type} {f : ExprSchema → β} (blind : ∀ sch subst, f { sch with subst := subst } = f sch)
    {schemata schemata' : List ExprSchema} (related : List.Forall₂ (Resolved query) schemata schemata') :
    schemata'.map f = schemata.map f := by
  induction related with
  | nil => rfl
  | cons here _ ih =>
    obtain ⟨representative, tree, -, -, rfl⟩ := here
    rw [List.map_cons, List.map_cons, ih, blind]

/-- **Every request is answered**, in absolute mode and without renaming. -/
theorem handleQuery_answers (requested : ∀ token ∈ query.tokens, Requested token)
    (few : (namesOfRequest D query.tokens).map.length < 2 ^ 24 - 161) (small : query.tokens.length ≤ 2 ^ 32)
    (absolute : query.cutoffMode ≠ 'R') (order : Arrangement) :
    ∃ answer, handleQuery D ⟨⟨false⟩⟩ order query = .ok answer ∧ Answers query answer := by
  obtain ⟨result, answer, shared, rooted, low, answered, -, related⟩ := handleQuery_shared requested few small order
  rw [cutoffHeuristic, if_neg absolute] at shared rooted
  have numbers := getElem?_formulaeOfRequest requested few
  have read := read_formulaeOfRequest requested few
  have spelt := fun pair member => (read pair member).spelt .absolute
  have listed : ∀ sch ∈ result.schemata, ∀ i ∈ sch.formulae, ∃ tree, (query.tokens.filter narrow)[i]? = some tree ∧
      sch.root = (schemaOf query.maxDepth tree).toCmml := by
    intro sch member i belongs
    have found := List.getElem?_eq_getElem (low sch member i belongs)
    refine ⟨_, by rw [numbers, found]; rfl, ?_⟩
    exact root_absolute spelt shared rooted sch member i belongs _ found
  refine ⟨answer, answered, fun sch' member => ?_, fun sch' member i belongs => ?_, fun sch' member i j tree tree' is is' => ?_,
    fun sch' member => ?_, fun zero => ?_⟩
  · obtain ⟨sch, inside, _, _, -, -, rfl⟩ := exists_of_forall₂ related member
    exact (shared.coverage sch inside).1
  · obtain ⟨sch, inside, _, _, -, -, rfl⟩ := exists_of_forall₂ related member
    exact listed sch inside i belongs
  · obtain ⟨sch, inside, _, _, -, -, rfl⟩ := exists_of_forall₂ related member
    rw [numbers] at is is'
    obtain ⟨pair, found, rfl⟩ := Option.map_eq_some_iff.mp is
    obtain ⟨pair', found', rfl⟩ := Option.map_eq_some_iff.mp is'
    intro belongs
    rw [← @reduceEncoded_eq_iff _ _ .absolute _ _ (read _ (List.mem_of_getElem? found'))
      (read _ (List.mem_of_getElem? found))]
    exact shared.together sch inside i j pair pair' found found' belongs
  · obtain ⟨sch, inside, representative, tree, first, found, rfl⟩ := exists_of_forall₂ related member
    exact ⟨representative, tree, first, found, rfl⟩
  · rw [List.flatMap, map_of_resolved (fun _ _ => rfl) related, ← length_formulaeOfRequest requested few]
    exact shared.partition zero

/-- **The answer to a request**, in absolute mode and without renaming. Formulae are numbered among the trees that are
accepted. Every formula of a schema is an instance of it and generalised by it, formulae share a schema if the same nodes
are left of them, and the coverage is their number; when all schemata are asked for, every formula is in one of them. If
the tree with the first number in the request is the first formula, and its nodes have an `xref`, the substitutions line
up with the variables if and only if the second walk comes to all that was dropped, which it does where heads fit. -/
theorem handleQuery_absolute (requested : ∀ token ∈ query.tokens, Requested token)
    (few : (namesOfRequest D query.tokens).map.length < 2 ^ 24 - 161) (small : query.tokens.length ≤ 2 ^ 32)
    (absolute : query.cutoffMode ≠ 'R') (order : Arrangement) :
    ∃ answer, handleQuery D ⟨⟨false⟩⟩ order query = .ok answer ∧
      (castUnsigned query.attrResultMaxSize = 0 →
        (answer.schemata.flatMap ExprSchema.formulae).Perm (List.range (query.tokens.filter narrow).length)) ∧
      ∀ sch ∈ answer.schemata, sch.coverage = sch.formulae.length ∧
        (∀ i ∈ sch.formulae, ∃ tree, (query.tokens.filter narrow)[i]? = some tree ∧
          Generalises query.maxDepth sch.root tree ∧ InstanceOf sch.root tree ∧
          ∀ j tree', (query.tokens.filter narrow)[j]? = some tree' → (j ∈ sch.formulae ↔
            word (keptSymbols query.maxDepth tree') = word (keptSymbols query.maxDepth tree))) ∧
        ∃ representative tree, sch.formulae.head? = some representative ∧ query.tokens[representative]? = some tree ∧
          ((query.tokens.filter narrow)[representative]? = some tree → Referenced tree →
            (Aligned sch.root tree sch.subst ↔ ResolvesAll query.maxDepth tree)) ∧
          (HeadsFit headed query.maxDepth 0 tree.skeleton → ResolvesAll query.maxDepth tree) := by
  obtain ⟨answer, answered, answers⟩ := handleQuery_answers requested few small absolute order
  refine ⟨answer, answered, answers.partition, fun sch member => ⟨answers.coverage sch member, fun i belongs => ?_, ?_⟩⟩
  · obtain ⟨tree, found, root⟩ := answers.listed sch member i belongs
    have asked := requested tree (List.mem_of_mem_filter (List.mem_of_getElem? found))
    have generalises := generalises_schemaOf asked.plain asked.free query.maxDepth
    refine ⟨tree, found, root ▸ generalises, root ▸ generalises.hasInstance ?_, fun j tree' found' =>
      answers.together sch member i j tree tree' found found' belongs⟩
    exact lt_of_le_of_lt (length_qvarNames_schemaOf asked.plain asked.free query.maxDepth) asked.size
  · obtain ⟨representative, tree, first, found, subst⟩ := answers.resolves sch member
    have asked := requested tree (List.mem_of_getElem? found)
    refine ⟨representative, tree, first, found, fun same referenced => ?_,
      fun fit => .inr (resolved_of_headsFit tree asked.plain 0 fit)⟩
    obtain ⟨tree', found', root⟩ := answers.listed sch member representative (List.mem_of_head? first)
    obtain rfl := Option.some.inj (same.symm.trans found')
    rw [subst, root]
    exact aligned_iff asked.plain asked.free asked.size referenced query.maxDepth

/-- A request for all schemata at depth 1. -/
def requestFor (tokens : List CmmlToken) : Query :=
  { Query.new ⟨.schemaXml, 'A'⟩ with tokens := tokens, attrResultMaxSize := 0, maxDepth := 1 }

/-- `<root xref="1"><leaf xref="2"/></root>`. -/
def referencedTree (root leaf : Char) : CmmlToken :=
  .mk [root] [(xrefAttr, ['1'])] .empty [.mk [leaf] [(xrefAttr, ['2'])] .empty []]

/-- `r(u)`, `r(v)` and `s(w)`. -/
def twoSchemata : List CmmlToken :=
  [referencedTree 'r' 'u', referencedTree 'r' 'v', referencedTree 's' 'w']

theorem encodeTokens_cons (config : EncoderConfig) (encoder : ExpressionEncoder) (token : CmmlToken) (rest : List CmmlToken) :
    (encodeTokens D config encoder (token :: rest)).1 =
      (encodeTokens D config (encodeLoop (D := D) .harvest config (preorder token none [])
        (encoder.startRound none)).1.encoder rest).1 := by
  rw [encodeTokens, encode, ← foreachSubexpression_eq]
  rfl

theorem requested_of_checks {tree : CmmlToken} (free : tree.VariableFree)
    (plain : ∀ inner ∈ subtrees tree, '#' ∉ inner.getTag ∧ inner.getTag.take 2 ≠ ['m', ':'])
    (countable : ∀ inner ∈ subtrees tree, inner.getChildNodes.length < 2 ^ 32) (size : (subtrees tree).length < 2 ^ 32) :
    Requested tree :=
  ⟨free, fun inner inside => ⟨(plain inner inside).1, (plain inner inside).2⟩, countable, size⟩

theorem requested_twoSchemata : ∀ token ∈ twoSchemata, Requested token := by
  refine List.forall_mem_cons.mpr ⟨?_, List.forall_mem_cons.mpr ⟨?_, List.forall_mem_singleton.mpr ?_⟩⟩ <;>
  exact requested_of_checks (by unfold VariableFree; decide +kernel) (by decide +kernel) (by decide +kernel) (by decide +kernel)

/-- `r(u)` and `r(v)` share the schema `r(x1)`, whose variable is resolved in one of them; `s(w)` has another. -/
theorem handleQuery_absolute_twoSchemata :
    ∃ answer, handleQuery .whole ⟨⟨false⟩⟩ largestFirst (requestFor twoSchemata) = .ok answer ∧
      ∃ sch ∈ answer.schemata, 0 ∈ sch.formulae ∧ 1 ∈ sch.formulae ∧ 2 ∉ sch.formulae ∧
        ∃ tree ∈ twoSchemata, Aligned sch.root tree sch.subst := by
  have few : (namesOfRequest .whole twoSchemata).map.length < 2 ^ 24 - 161 := by
    rw [namesOfRequest, twoSchemata, encodeTokens_cons, encodeTokens_cons, encodeTokens_cons]
    decide +kernel
  obtain ⟨answer, answered, partition, each⟩ := @handleQuery_absolute .whole (requestFor twoSchemata)
    requested_twoSchemata few (by decide) (by decide) largestFirst
  have accepted : twoSchemata.filter narrow = twoSchemata := List.filter_eq_self.mpr (by decide +kernel)
  simp only [show (requestFor twoSchemata).tokens = twoSchemata from rfl, accepted] at partition each
  obtain ⟨sch, member, first⟩ := List.mem_flatMap.mp
    ((partition (by decide)).mem_iff.mpr (List.mem_range.mpr (by decide : 0 < twoSchemata.length)))
  obtain ⟨-, formulae, representative, tree, head, found, aligned, -⟩ := each sch member
  obtain ⟨_, here, -, -, together⟩ := formulae 0 first
  obtain rfl := Option.some.inj (here : some (referencedTree 'r' 'u') = some _)
  refine ⟨answer, answered, sch, member, first, (together 1 _ rfl).mpr (by decide +kernel),
    fun third => absurd ((together 2 _ rfl).mp third) (by decide +kernel), tree, List.mem_of_getElem? found, ?_⟩
  have resolved : ∀ tree ∈ twoSchemata, Referenced tree ∧ ResolvesAll 1 tree := by
    refine List.forall_mem_cons.mpr ⟨?_, List.forall_mem_cons.mpr ⟨?_, List.forall_mem_singleton.mpr ?_⟩⟩ <;>
    exact ⟨by unfold Referenced; decide +kernel, .inr rfl⟩
  exact (aligned found (resolved tree (List.mem_of_getElem? found)).1).mpr (resolved tree (List.mem_of_getElem? found)).2

theorem getElem?_of_prefix {α : Type} {front items : List α} (prefixed : front <+: items) {i : Nat} {item : α}
    (found : front[i]? = some item) : items[i]? = some item := by
  obtain ⟨rest, rfl⟩ := prefixed
  rw [List.getElem?_append_left (List.getElem?_eq_some_iff.mp found).1, found]

/-- Accepted items stand in front of the others if as many items from the first one on are accepted. -/
theorem filter_prefix_iff {α : Type} (p : α → Bool) (items : List α) : items.filter p <+: items ↔
    ∀ i < (items.filter p).length, ∃ item, items[i]? = some item ∧ p item = true := by
  constructor
  · rintro prefixed i low
    exact ⟨_, getElem?_of_prefix prefixed (List.getElem?_eq_getElem low), (List.mem_filter.mp (List.getElem_mem low)).2⟩
  · intro each
    have front : (items.take (items.filter p).length).filter p = items.take (items.filter p).length := by
      refine List.filter_eq_self.mpr fun item member => ?_
      obtain ⟨i, found⟩ := List.getElem?_of_mem member
      have low : i < (items.filter p).length := (List.getElem?_eq_some_iff.mp found).1.trans_le (List.length_take_le _ _)
      obtain ⟨item', found', accepts⟩ := each i low
      rw [List.getElem?_take_of_lt low, found'] at found
      exact Option.some.inj found ▸ accepts
    have split := List.filter_append (p := p) (items.take (items.filter p).length) (items.drop (items.filter p).length)
    rw [List.take_append_drop, front] at split
    have lengths := congrArg List.length split
    rw [List.length_append, List.length_take, min_eq_left (List.length_filter_le p items)] at lengths
    have none : (items.drop (items.filter p).length).filter p = [] := List.eq_nil_of_length_eq_zero (by omega)
    rw [none, List.append_nil] at split
    rw [split]
    exact List.take_prefix _ _

/-- **When the numbers of an answer are positions in the request**: every number denotes a tree that is accepted and that
is an instance of its schema, if and only if no accepted tree stands behind a rejected one. -/
theorem handleQuery_ids_iff (requested : ∀ token ∈ query.tokens, Requested token)
    (few : (namesOfRequest D query.tokens).map.length < 2 ^ 24 - 161) (small : query.tokens.length ≤ 2 ^ 32)
    (absolute : query.cutoffMode ≠ 'R') (unlimited : castUnsigned query.attrResultMaxSize = 0) (order : Arrangement) :
    ∃ answer, handleQuery D ⟨⟨false⟩⟩ order query = .ok answer ∧
      ((∀ sch ∈ answer.schemata, ∀ i ∈ sch.formulae, ∃ tree, query.tokens[i]? = some tree ∧ narrow tree = true ∧
          InstanceOf sch.root tree) ↔ query.tokens.filter narrow <+: query.tokens) := by
  obtain ⟨answer, answered, answers⟩ := handleQuery_answers requested few small absolute order
  refine ⟨answer, answered, fun denotes => ?_, fun prefixed sch member i belongs => ?_⟩
  · rw [filter_prefix_iff]
    intro i low
    have inside := (answers.partition unlimited).mem_iff.mpr (List.mem_range.mpr low)
    obtain ⟨sch, member, belongs⟩ := List.mem_flatMap.mp inside
    obtain ⟨tree, found, isNarrow, -⟩ := denotes sch member i belongs
    exact ⟨tree, found, isNarrow⟩
  · obtain ⟨tree, found, root⟩ := answers.listed sch member i belongs
    obtain ⟨inside, isNarrow⟩ := List.mem_filter.mp (List.mem_of_getElem? found)
    have asked := requested tree inside
    refine ⟨tree, getElem?_of_prefix prefixed found, isNarrow, root ▸ ?_⟩
    exact (generalises_schemaOf asked.plain asked.free query.maxDepth).hasInstance
      (lt_of_le_of_lt (length_qvarNames_schemaOf asked.plain asked.free query.maxDepth) asked.size)

/-- A tree with too many child nodes in front of another: the only number of the answer denotes the wrong one. -/
theorem handleQuery_ids_rejected :
    ∃ answer, handleQuery .whole ⟨⟨false⟩⟩ largestFirst (requestFor [wideTree three 256, three]) = .ok answer ∧
      ¬∀ sch ∈ answer.schemata, ∀ i ∈ sch.formulae, ∃ tree, [wideTree three 256, three][i]? = some tree ∧ narrow tree = true ∧
        InstanceOf sch.root tree := by
  have requested : ∀ token ∈ [wideTree three 256, three], Requested token :=
    List.forall_mem_cons.mpr ⟨requested_of_checks (variableFree_wideTree 256) (by decide +kernel) (by decide +kernel)
      (by decide +kernel), List.forall_mem_singleton.mpr (requested_of_checks (by unfold VariableFree; decide +kernel)
      (by decide +kernel) (by decide +kernel) (by decide +kernel))⟩
  have few : (namesOfRequest .whole [wideTree three 256, three]).map.length < 2 ^ 24 - 161 := by
    rw [namesOfRequest, encodeTokens_cons, encodeTokens_cons]
    decide +kernel
  obtain ⟨answer, answered, ids⟩ := @handleQuery_ids_iff .whole (requestFor [wideTree three 256, three]) requested few (by decide)
    (by decide) (by decide) largestFirst
  refine ⟨answer, answered, fun denotes => ?_⟩
  obtain ⟨rest, split⟩ := ids.mp denotes
  have accepted : [wideTree three 256, three].filter narrow = [three] := by
    rw [List.filter_cons_of_neg (by decide +kernel), List.filter_cons_of_pos (by decide +kernel), List.filter_nil]
  rw [show (requestFor [wideTree three 256, three]).tokens = [wideTree three 256, three] from rfl, accepted] at split
  have first := congrArg CmmlToken.getTag (List.cons.inj split).1
  exact absurd first (by decide +kernel)

end Answers

end SchemaQueryHandler

end MathWebSearch
