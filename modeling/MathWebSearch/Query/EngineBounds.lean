/-
**The arrays of the experimental engine** (`engine.c`).

The sizes of the query, of the terms that variables stand for and of the stack with a repeated variable expanded all come
from the query and the index; nothing compares them with the sizes of the arrays.

* `Fits` — the arrays are large enough wherever the engine gets to, as a recursion over the query.
* `Within` — a run that stays inside the arrays if `Fits` holds and, for a query that is a pattern, only then;
  it composes like the functions of the engine do.
* `processQueryToken_within` — by induction over the height of the index.
* `queryEngineRun_inBounds_iff` — the same for whole runs on exported indexes.
-/

import MathWebSearch.Index.IdClasses
import MathWebSearch.Query.EngineRun

namespace MathWebSearch

open PrefixCode TmpIndexNode

namespace Engine

/-! ### What has to fit -/

/-- **The arrays are large enough** for a query at a node: every variable has an entry of `vars`, a variable that is
solved can be expanded on the query stack, and a variable that is not solved stands in front of a term that fits its
tokens, and not behind the end of a formula. -/
def Fits : Env → EncodedFormula → TmpIndexNode → Prop
  | _, [], _ => True
  | env, token :: rest, node =>
    if token.isVar then
      token.id < varIdMax ∧
        match env token.id with
        | some word => word.length + rest.length ≤ maxQueryStackSize ∧
            ∀ next, walk word node = some next → Fits env rest next
        | none => node.children ≠ [] ∧ ∀ term ∈ node.firstTerms 1, term.1.length ≤ maxVarInstantiationSize ∧
            Fits (Function.update env token.id (some term.1)) rest term.2
    else ∀ next, node.child token = some next → Fits env rest next

/-- The query is a pattern: with a variable for a whole subterm, its subterms are complete at the end. The engine never
gets behind a range. -/
def Proper : Nat → EncodedFormula → Prop
  | 0, query => query = []
  | _ + 1, [] => False
  | opened + 1, token :: rest =>
    if token.isVar then Proper opened rest else if token.isRange then True else Proper (opened + token.arity) rest

instance decidableProper : ∀ (opened : Nat) (query : EncodedFormula), Decidable (Proper opened query)
  | 0, query => decidable_of_iff (query = []) (by rw [Proper])
  | _ + 1, [] => .isFalse id
  | opened + 1, token :: rest =>
    have := decidableProper opened rest
    have := decidableProper (opened + token.arity) rest
    inferInstanceAs (Decidable (if token.isVar then _ else if token.isRange then True else _))

/-- No access outside of the arrays and no other undefined behaviour: all that can go wrong is that an assertion fails. -/
def InBounds (result : EngineResult) : Prop := ∀ fault, result = .error fault → fault = .assertion

theorem fits_constant {env : Env} {token : EncodedToken} (constant : token.isVar = false) {rest : EncodedFormula}
    {node : TmpIndexNode} :
    Fits env (token :: rest) node ↔ ∀ next, node.child token = some next → Fits env rest next := by
  rw [Fits, constant]
  exact Iff.rfl

/-- Constants in front of a query are walked along. -/
theorem fits_append_constants (env : Env) {word : EncodedFormula} (constants : ∀ token ∈ word, token.isVar = false)
    (rest : EncodedFormula) : ∀ node : TmpIndexNode,
      Fits env (word ++ rest) node ↔ ∀ next, walk word node = some next → Fits env rest next := by
  induction word with
  | nil =>
    intro node
    simp [walk]
  | cons token word ih =>
    intro node
    rw [List.cons_append, fits_constant (constants token List.mem_cons_self), walk]
    cases node.child token with
    | none => simp
    | some below =>
      rw [Option.bind_some, ← ih fun other member => constants other (List.mem_cons_of_mem _ member)]
      simp

/-- A term in front of a pattern. -/
theorem proper_append {word : EncodedFormula} (constants : ∀ token ∈ word, token.isVar = false)
    {opened : Nat} {rest : EncodedFormula} (proper : Proper opened rest) : ∀ {count : Nat},
      Closes EncodedToken.arity count word → Proper (opened + count) (word ++ rest) := by
  induction word with
  | nil =>
    intro count closes
    cases count with
    | zero => exact proper
    | succ count => exact (not_closes_nil closes).elim
  | cons token word ih =>
    intro count closes
    cases count with
    | zero => exact closes.elim
    | succ count =>
      rw [← Nat.add_assoc, List.cons_append, Proper, constants token List.mem_cons_self]
      simp only [Bool.false_eq_true, if_false]
      split
      · trivial
      · rw [Nat.add_assoc]
        exact ih (fun other member => constants other (List.mem_cons_of_mem _ member)) closes

/-! ### Runs inside the arrays -/

/-- **A run inside the arrays**: if `fits` holds, and then the context is put in order as `Back` says; for a query that
is a `pattern` and a callback that never ends the run, only if it holds. -/
structure Within (resultCb : List Nat → QueryReturn) (pattern fits : Prop) (Back : QueryCtxt → Prop)
    (result : EngineResult) : Prop where
  safe : fits → InBounds result ∧ ∀ later, result = .ok (.queryContinue, later) → Back later
  exact : pattern → (∀ calls, resultCb calls = .queryContinue) →
    (fits → ∃ later, result = .ok (.queryContinue, later)) ∧ (¬fits → result = .error .overflow)

namespace Within

variable {resultCb : List Nat → QueryReturn} {pattern fits fits' : Prop} {Back Back' : QueryCtxt → Prop}
  {result : EngineResult}

theorem congr (within : Within resultCb pattern fits Back result) (same : fits ↔ fits') :
    Within resultCb pattern fits' Back result :=
  ⟨fun holds => within.safe (same.mpr holds), fun isPattern continuing =>
    ⟨fun holds => (within.exact isPattern continuing).1 (same.mpr holds),
      fun fails => (within.exact isPattern continuing).2 fun holds => fails (same.mp holds)⟩⟩

/-- A result that is there. -/
theorem pure (ctxt : QueryCtxt) (back : Back ctxt) :
    Within resultCb pattern True Back (.ok (.queryContinue, ctxt)) := by
  refine ⟨fun _ => ⟨nofun, fun later same => ?_⟩, fun _ _ => ⟨fun _ => ⟨ctxt, rfl⟩, fun fails => absurd trivial fails⟩⟩
  obtain rfl : ctxt = later := by
    injection same with same
    exact congrArg Prod.snd same
  exact back

/-- Nothing is asked of what does not fit, for a query that is no pattern. -/
theorem overflow (fails : ¬fits) : Within resultCb pattern fits Back (.error .overflow) :=
  ⟨fun holds => absurd holds fails, fun _ _ => ⟨fun holds => absurd holds fails, fun _ => rfl⟩⟩

/-- A failed assertion, for a query that is no pattern. -/
theorem assertion (noPattern : ¬pattern) : Within resultCb pattern fits Back (.error .assertion) :=
  ⟨fun _ => ⟨fun _ same => (Except.error.inj same).symm, nofun⟩, fun isPattern => absurd isPattern noPattern⟩

/-- Going on behind a run. -/
theorem bind {onward : QueryCtxt → EngineResult} (within : Within resultCb pattern fits Back result)
    (next : fits → ∀ later, Back later → Within resultCb pattern fits' Back' (onward later)) :
    Within resultCb pattern (fits ∧ fits') Back' (onContinue result onward) := by
  constructor
  · rintro ⟨holds, holds'⟩
    obtain ⟨bounds, back⟩ := within.safe holds
    match result, bounds, back with
    | .ok (.queryContinue, later), _, back => exact (next holds later (back later rfl)).safe holds'
    | .ok (.queryStop, later), _, _ => exact ⟨nofun, nofun⟩
    | .ok (.queryError, later), _, _ => exact ⟨nofun, nofun⟩
    | .error fault, bounds, _ => exact ⟨bounds, nofun⟩
  · intro isPattern continuing
    obtain ⟨computes, overflows⟩ := within.exact isPattern continuing
    by_cases holds : fits
    · obtain ⟨later, rfl⟩ := computes holds
      have exact := (next holds later ((within.safe holds).2 later rfl)).exact isPattern continuing
      exact ⟨fun both => exact.1 both.2, fun fails => exact.2 fun holds' => fails ⟨holds, holds'⟩⟩
    · rw [overflows holds]
      exact ⟨fun both => absurd both.1 holds, fun _ => rfl⟩

/-- Only putting the context in order behind a run. -/
theorem restore {onward : QueryCtxt → EngineResult} (within : Within resultCb pattern fits Back result)
    (next : ∀ later, Back later → ∃ last, onward later = .ok (.queryContinue, last) ∧ Back' last) :
    Within resultCb pattern fits Back' (onContinue result onward) := by
  have whole : Within resultCb pattern (fits ∧ True) Back' (onContinue result onward) := by
    refine within.bind fun _ later back => ?_
    obtain ⟨last, computed, back'⟩ := next later back
    rw [computed]
    exact pure last back'
  exact whole.congr (by rw [and_true])

/-- A loop with the same outcome in every round. -/
theorem forEach {α : Type} {body : α → QueryCtxt → EngineResult}
    (round : ∀ item ctxt, Back ctxt → Within resultCb pattern fits Back (body item ctxt)) (items : List α) :
    ∀ {ctxt : QueryCtxt}, Back ctxt →
      Within resultCb pattern (items ≠ [] → fits) Back (Engine.forEach body items ctxt) := by
  induction items with
  | nil => intro ctxt back; exact (pure ctxt back).congr (by simp)
  | cons item rest ih =>
    intro ctxt back
    refine ((round item ctxt back).bind fun _ later back' => ih back').congr ?_
    simp only [ne_eq, reduceCtorEq, not_false_eq_true, forall_const]
    exact ⟨fun both => both.1, fun holds => ⟨holds, fun _ => holds⟩⟩

end Within

/-! ### One token -/

section Tokens

variable {handle : IndexHandle} {resultCb : List Nat → QueryReturn} {pattern : Prop} {node : TmpIndexNode}
  {opened : Nat} {ctxt : QueryCtxt}

/-- A context that stands at a node of an index without variables and ranges. -/
structure StandsAmong (handle : IndexHandle) (node : TmpIndexNode) (opened : Nat) (ctxt : QueryCtxt) : Prop extends
    Stands handle node opened ctxt where
  constants : Sound EncodedToken.IsConstant opened node

/-- What the engine does at nodes up to a height, with enough fuel. -/
def ProcessWithin (handle : IndexHandle) (resultCb : List Nat → QueryReturn) (pattern : Prop) (height : Nat) : Prop :=
  ∀ (fuel : Nat) (ctxt : QueryCtxt) {opened : Nat} {node : TmpIndexNode}, node.height < height →
    3 * node.height + 4 ≤ fuel → StandsAmong handle node opened ctxt →
    ctxt.queryStack.length ≤ maxQueryStackSize → (pattern → Proper opened ctxt.queryStack) →
    Within resultCb pattern (Fits (envOf ctxt) ctxt.queryStack node) (Restored ctxt)
      (processQueryToken handle.image resultCb fuel ctxt)

theorem revertQuery_of_lt (token : EncodedToken) (room : ctxt.queryStack.length < maxQueryStackSize) :
    revertQuery token ctxt = .ok (.queryContinue, { ctxt with queryStack := token :: ctxt.queryStack }) := by
  rw [revertQuery, tokenStackPush, if_pos room]
  rfl

/-- Pushing tokens on a stack that fits. -/
theorem tokenStackPushAll_eq_ite {stack : List EncodedToken} (fits : stack.length ≤ maxQueryStackSize)
    (tokens : List EncodedToken) : tokenStackPushAll stack tokens =
      if tokens.length + stack.length ≤ maxQueryStackSize then .ok (tokens ++ stack) else .error .overflow := by
  induction tokens with
  | nil =>
    rw [List.length_nil, Nat.zero_add, if_pos fits]
    rfl
  | cons token rest ih =>
    have step : tokenStackPushAll stack (token :: rest) =
        tokenStackPushAll stack rest >>= fun pushed => tokenStackPush pushed token := by
      unfold tokenStackPushAll
      rw [List.reverse_cons, List.foldlM_append]
      simp only [List.foldlM_cons, List.foldlM_nil, bind_pure]
    rw [step, ih, List.length_cons]
    by_cases room : rest.length + stack.length ≤ maxQueryStackSize
    · rw [if_pos room]
      show tokenStackPush (rest ++ stack) token = _
      rw [tokenStackPush, List.length_append]
      by_cases last : rest.length + stack.length < maxQueryStackSize
      · rw [if_pos last, if_pos (by omega)]
        rfl
      · rw [if_neg last, if_neg (by omega)]
    · rw [if_neg room, if_neg (by omega)]
      rfl

/-- A constant behind the end of a formula. -/
theorem processQueryToken_constant_leaf {fuel : Nat} {token : EncodedToken} {rest : EncodedFormula}
    (stack : ctxt.queryStack = token :: rest) (constant : token.isVar = false)
    (stands : StandsAmong handle node 0 ctxt) :
    processQueryToken handle.image resultCb (fuel + 1) ctxt = .error .assertion := by
  obtain ⟨leaf, isLeaf⟩ : ∃ leaf, node.leaf = some leaf := by
    cases stands.sound.shape with
    | leaf leaf => exact ⟨leaf, rfl⟩
  have type := nodeType_of_leaf (stands.represents.leaf isLeaf).1
  rw [processQueryToken_constant_eq handle.image fuel stack constant stands.indexStack, type]
  rfl

/-- **A constant of the query** leads to one child, or nowhere. -/
theorem within_constant {fuel height : Nat} (spec : ProcessWithin handle resultCb pattern height)
    (deep : node.height ≤ height) (enough : 3 * node.height + 1 ≤ fuel) {token : EncodedToken}
    {rest : EncodedFormula} (stack : ctxt.queryStack = token :: rest) (constant : token.isVar = false)
    (stands : StandsAmong handle node (opened + 1) ctxt) (short : rest.length < maxQueryStackSize)
    (proper : pattern → token.isRange = false → Proper (opened + token.arity) rest) :
    Within resultCb pattern (Fits (envOf ctxt) (token :: rest) node) (Restored ctxt)
      (processQueryToken handle.image resultCb (fuel + 1) ctxt) := by
  obtain ⟨type, off, typed, searched, outcome⟩ := stands.toStands.child token
  rw [processQueryToken_constant_eq handle.image fuel stack constant stands.indexStack, typed]
  show Within _ _ _ _ (Except.bind (Except.ok type) _)
  rw [Except.bind, searched]
  show Within _ _ _ _ (ite _ _ _)
  rcases outcome with ⟨rfl, missing⟩ | ⟨nonnull, next, address, below, represents, converted, reached⟩
  · rw [if_pos rfl, revertQuery_of_lt token (show ({ ctxt with queryStack := rest } : QueryCtxt).queryStack.length < _ from short)]
    refine (Within.pure { ctxt with queryStack := token :: rest } ⟨stack.symm, rfl, rfl, rfl⟩).congr ?_
    rw [fits_constant constant, missing]
    simp
  · rw [if_neg nonnull, converted]
    have member := (VectorMap.find_eq_some_iff stands.sound.shape.sorted).mp below
    have lower := height_child member
    have noRange : token.isRange = false := (stands.constants.entry member).1.isRange_eq
    obtain ⟨long, offsets, inner⟩ := stands.represents.inner stands.sound.shape.children_ne_nil
    have within := spec fuel { ctxt with queryStack := rest, currIndexInode := address }
      (lt_of_lt_of_le lower deep) (by omega)
      ⟨⟨represents, stands.sound.child below, stands.indexStack, stands.terms⟩, stands.constants.child below⟩
      short.le (fun isPattern => proper isPattern noRange)
    refine (within.restore fun later back => ?_).congr ?_
    · obtain ⟨more, rfl⟩ : ∃ more, fuel = more + 1 := ⟨fuel - 1, by omega⟩
      have room : ({ later with currIndexInode := ctxt.currIndexInode } : QueryCtxt).queryStack.length <
          maxQueryStackSize := by
        show later.queryStack.length < _
        rw [back.queryStack]
        exact short
      rw [revertQuery_of_lt token room, onContinue, inodeGetMaxVar_eq inner stands.sound]
      refine ⟨_, rfl, ?_, rfl, back.indexStack, back.env⟩
      exact (congrArg (token :: ·) back.queryStack).trans stack.symm
    · rw [fits_constant constant, below]
      simp
      exact Iff.rfl

/-- **A solved variable of the query** is expanded on the stack. -/
theorem within_solved {fuel height : Nat} (spec : ProcessWithin handle resultCb pattern height)
    (deep : node.height ≤ height) (enough : 3 * node.height + 1 ≤ fuel) {token : EncodedToken}
    {rest : EncodedFormula} (stack : ctxt.queryStack = token :: rest) (isVar : token.isVar = true)
    (solved : (ctxt.vars token.id).solved = true) (stands : StandsAmong handle node opened ctxt)
    (short : rest.length < maxQueryStackSize) (proper : pattern → Proper opened (token :: rest)) :
    Within resultCb pattern (Fits (envOf ctxt) (token :: rest) node) (Restored ctxt)
      (processQueryToken handle.image resultCb (fuel + 2) ctxt) := by
  have bound : envOf ctxt token.id = some (ctxt.vars token.id).tokens := if_pos solved
  obtain ⟨term, constants⟩ := stands.terms token.id _ bound
  generalize words : (ctxt.vars token.id).tokens = word at bound term constants
  have fits : Fits (envOf ctxt) (token :: rest) node ↔ token.id < varIdMax ∧
      word.length + rest.length ≤ maxQueryStackSize ∧ Fits (envOf ctxt) (word ++ rest) node := by
    rw [fits_append_constants _ constants, Fits, if_pos isVar, bound]
  rw [processQueryToken_var_eq handle.image _ stack isVar, varAt]
  by_cases small : token.id < varIdMax
  · rw [if_pos small]
    show Within _ _ _ _ (ite _ _ _)
    rw [if_pos solved, words, tokenStackPushAll_eq_ite short.le]
    by_cases room : word.length + rest.length ≤ maxQueryStackSize
    · rw [if_pos room]
      obtain ⟨first, others, rfl, closesOthers⟩ := term.exists_cons
      rw [Nat.zero_add] at closesOthers
      have standing : StandsAmong handle node opened { ctxt with queryStack := first :: (others ++ rest) } :=
        ⟨⟨stands.represents, stands.sound, stands.indexStack, stands.terms⟩, stands.constants⟩
      cases opened with
      | zero =>
        have failed : processQueryToken handle.image resultCb (fuel + 1)
            { ctxt with queryStack := (first :: others) ++ rest } = .error .assertion :=
          processQueryToken_constant_leaf rfl (constants first List.mem_cons_self) standing
        show Within _ _ _ _ (onContinue (processQueryToken _ _ _ _) _)
        rw [failed]
        exact .assertion fun isPattern => absurd (proper isPattern) (fun other => by cases other)
      | succ opened =>
        have shorter : (others ++ rest).length < maxQueryStackSize := by
          rw [List.length_append]
          rw [List.length_cons] at room
          omega
        have properRest : pattern → Proper opened rest := by
          intro isPattern
          have whole := proper isPattern
          rwa [Proper, if_pos isVar] at whole
        have within := within_constant spec deep enough
          (show ({ ctxt with queryStack := first :: (others ++ rest) } : QueryCtxt).queryStack = _ from rfl)
          (constants first List.mem_cons_self) standing shorter fun isPattern _ =>
            proper_append (fun other member => constants other (List.mem_cons_of_mem _ member)) (properRest isPattern)
              closesOthers
        refine (within.restore fun later back => ?_).congr ?_
        · have query : later.queryStack = (first :: others) ++ rest := back.queryStack
          rw [query, tokenStackPopMany_append]
          refine ⟨_, revertQuery_of_lt token (show ({ later with queryStack := rest } : QueryCtxt).queryStack.length < _
            from short), stack.symm, back.currIndexInode, back.indexStack, back.env⟩
        · rw [fits]
          exact ⟨fun holds => ⟨small, room, holds⟩, fun all => all.2.2⟩
    · rw [if_neg room]
      exact .overflow fun holds => room (fits.mp holds).2.1
  · rw [if_neg small]
    exact .overflow fun holds => small (fits.mp holds).1

end Tokens

/-! ### A variable along the index -/

section Variables

variable {handle : IndexHandle} {resultCb : List Nat → QueryReturn} {pattern : Prop} {opened arity : Nat}
  {ctxt : QueryCtxt} {word : EncodedFormula}

/-- What has to fit while a variable that has grown to `word` closes `arity` more subterms. -/
def GrowFits (env : Env) (varId : Nat) (query word : EncodedFormula) (arity : Nat) (node : TmpIndexNode) : Prop :=
  ∀ term ∈ node.firstTerms arity, (word ++ term.1).length ≤ maxVarInstantiationSize ∧
    Fits (Function.update env varId (some (word ++ term.1))) query term.2

theorem growFits_zero {env : Env} {varId : Nat} {query : EncodedFormula} {node : TmpIndexNode} :
    GrowFits env varId query word 0 node ↔ word.length ≤ maxVarInstantiationSize ∧
      Fits (Function.update env varId (some word)) query node := by
  simp [GrowFits]

/-- Growing along the first child. -/
theorem growFits_succ {env : Env} {varId : Nat} {query : EncodedFormula} {node next : TmpIndexNode}
    {token : EncodedToken} {rest : List (EncodedToken × TmpIndexNode)} (children : node.children = (token, next) :: rest) :
    GrowFits env varId query word (arity + 1) node ↔
      GrowFits env varId query (word ++ [token]) (arity + token.arity) next := by
  have regroup : ∀ term : EncodedFormula, word ++ [token] ++ term = word ++ token :: term := by
    intro term
    rw [List.append_assoc, List.singleton_append]
  have among : ∀ term, term ∈ node.firstTerms (arity + 1) ↔
      ∃ below ∈ next.firstTerms (arity + token.arity), (token :: below.1, below.2) = term := by
    intro term
    rw [firstTerms_succ children, List.mem_flatten]
    simp [List.mem_replicate]
  constructor
  · intro fits below member
    have whole := fits (token :: below.1, below.2) ((among _).mpr ⟨below, member, rfl⟩)
    rwa [regroup]
  · intro fits term member
    obtain ⟨below, inside, rfl⟩ := (among term).mp member
    have whole := fits below inside
    rwa [regroup] at whole

/-- A node with open subterms has a first term. -/
theorem firstTerms_ne_nil {node : TmpIndexNode} : ∀ {base arity : Nat}, WellFormed (base + arity) node →
    node.firstTerms arity ≠ [] := by
  induction node with
  | mk leaf children ih =>
    intro base arity shape
    cases arity with
    | zero => simp
    | succ arity =>
      obtain ⟨⟨token, next⟩, rest, entries⟩ := List.exists_cons_of_ne_nil shape.children_ne_nil
      have member : (token, next) ∈ (mk leaf children).children := by rw [entries]; exact List.mem_cons_self
      have below : WellFormed (base + (arity + token.arity)) next := by
        rw [← Nat.add_assoc]
        exact shape.entry member
      rw [firstTerms_succ entries, List.replicate_succ, List.flatten_cons]
      intro empty
      exact ih (token, next) member below (List.map_eq_nil_iff.mp (List.append_eq_nil_iff.mp empty).1)

/-- A variable that has used up its tokens cannot grow. -/
theorem not_growFits {env : Env} {varId : Nat} {query : EncodedFormula} {node : TmpIndexNode} {base : Nat}
    (shape : WellFormed (base + (arity + 1)) node) (full : ¬word.length < maxVarInstantiationSize) :
    ¬GrowFits env varId query word (arity + 1) node := by
  intro fits
  obtain ⟨⟨token, next⟩, rest, entries⟩ := List.exists_cons_of_ne_nil shape.children_ne_nil
  have member : (token, next) ∈ node.children := by rw [entries]; exact List.mem_cons_self
  have below : WellFormed (base + (arity + token.arity)) next := by
    rw [← Nat.add_assoc]
    exact shape.entry member
  rw [growFits_succ entries] at fits
  obtain ⟨term, among⟩ := List.exists_mem_of_ne_nil _ (firstTerms_ne_nil below)
  have long := (fits term among).1
  simp only [List.length_append, List.length_singleton] at long
  omega

/-- **The rest of the query behind a complete variable.** -/
theorem within_zero {fuel height : Nat} {node : TmpIndexNode} (spec : ProcessWithin handle resultCb pattern height)
    (deep : node.height < height) (enough : 3 * node.height + 4 ≤ fuel) (stands : StandsAmong handle node opened ctxt)
    (valid : ctxt.solvingVarId < varIdMax) (short : ctxt.queryStack.length ≤ maxQueryStackSize)
    (proper : pattern → Proper opened ctxt.queryStack) (solving : Solving ctxt 0 word) :
    Within resultCb pattern
      (Fits (Function.update (envOf ctxt) ctxt.solvingVarId (some word)) ctxt.queryStack node) (RestoredVar ctxt)
      (matchVarToIndex handle.image resultCb (fuel + 1) 0 ctxt) := by
  have nonempty : word.isEmpty = false := by
    obtain ⟨token, rest, rfl, _⟩ := solving.isTerm.1.exists_cons
    rfl
  have env := solving.env_solved
  have standing : StandsAmong handle node opened (setSolved ctxt ctxt.solvingVarId true) :=
    ⟨stands.toStands.finish solving, stands.constants⟩
  rw [matchVarToIndex_zero_eq, varAt, if_pos valid]
  show Within _ _ _ _ (onContinue (processQueryToken _ _ _ (ite _ _ _)) _)
  rw [solving.var, if_neg (by rw [nonempty]; exact Bool.false_ne_true)]
  have within := spec fuel (setSolved ctxt ctxt.solvingVarId true) deep enough standing short proper
  rw [env] at within
  refine within.restore fun later back => ⟨_, rfl, ⟨back.queryStack, back.currIndexInode, back.indexStack, ?_⟩, rfl, ?_⟩
  · rw [envOf_setSolved_false]
    show Function.update (envOf later) _ _ = _
    rw [back.env, env, Function.update_idem, ← solving.env_none, Function.update_eq_self]
  · have kept := congrFun (back.env.trans env) ctxt.solvingVarId
    rw [Function.update_self] at kept
    show Function.update later.vars _ _ ctxt.solvingVarId = _
    rw [Function.update_self, solving.var, tokens_of_envOf kept]

/-- One round grows by the token of the first child. -/
theorem within_growRound {fuel type off child : Nat} {token : EncodedToken} {fits : Prop}
    (solving : Solving ctxt (arity + 1) word) (constant : token.isVar = false)
    (first : entryToken handle.image ctxt.currIndexInode (decide (type = longInternalNode)) 0 = some token)
    (offset : entryOff handle.image ctxt.currIndexInode (decide (type = longInternalNode)) 0 = some off)
    (converted : IndexHandle.relOff2addr ctxt.currIndexInode off = some child)
    (full : ¬word.length < maxVarInstantiationSize → ¬fits)
    (grows : ∀ later, RestoredVar ctxt later → word.length < maxVarInstantiationSize →
      Within resultCb pattern fits (RestoredVar (grown later word token child))
        (matchVarToIndex handle.image resultCb (fuel + 2) (arity + token.arity) (grown later word token child)))
    {later : QueryCtxt} (back : RestoredVar ctxt later) :
    Within resultCb pattern fits (RestoredVar ctxt)
      (growRound handle.image resultCb (fuel + 2) (arity + 1) ctxt.solvingVarId ctxt.currIndexInode type later) := by
  have solvingLater := solving.restored back
  rw [growRound, first, offset, ← back.solvingVarId]
  show Within _ _ _ _ (resolve later.solvingVarId (fuel + 2) later [token] 0 >>= _)
  rw [resolve_constant _ constant, solvingLater.var]
  by_cases room : word.length < maxVarInstantiationSize
  · rw [if_pos room]
    have small : (arity + 1 + token.arity - 1) % 2 ^ 32 = arity + token.arity := by
      have := solving.small
      have := token.arity_lt
      rw [maxVarInstantiationSize] at room
      omega
    show Within _ _ _ _ (read (IndexHandle.relOff2addr later.currIndexInode off) >>= _)
    rw [back.currIndexInode, converted]
    show Within _ _ _ _ (onContinue (matchVarToIndex _ _ _ ((arity + 1 + token.arity - 1) % 2 ^ 32) _) _)
    rw [small]
    refine (grows later back room).restore fun last lastBack => ⟨_, rfl, ?_⟩
    exact back.trans (restoredVar_of_grown solvingLater lastBack)
  · rw [if_neg room]
    exact .overflow (full room)

/-- **A variable grows along the index.** -/
theorem within_matchVarToIndex {height : Nat} (spec : ProcessWithin handle resultCb pattern height)
    {node : TmpIndexNode} :
    ∀ {fuel arity opened : Nat} {ctxt : QueryCtxt} {word : EncodedFormula},
      (if arity = 0 then node.height < height else node.height ≤ height) →
      3 * node.height + (if arity = 0 then 5 else 3) ≤ fuel → StandsAmong handle node (opened + arity) ctxt →
      ctxt.solvingVarId < varIdMax → ctxt.queryStack.length ≤ maxQueryStackSize →
      (pattern → Proper opened ctxt.queryStack) → Solving ctxt arity word →
      Within resultCb pattern (GrowFits (envOf ctxt) ctxt.solvingVarId ctxt.queryStack word arity node)
        (RestoredVar ctxt) (matchVarToIndex handle.image resultCb fuel arity ctxt) := by
  induction node with
  | mk leaf children ih =>
    intro fuel arity opened ctxt word deep enough stands valid short proper solving
    cases arity with
    | zero =>
      rw [if_pos rfl] at deep enough
      obtain ⟨fuel, rfl⟩ : ∃ more, fuel = more + 1 := ⟨fuel - 1, by omega⟩
      refine (within_zero spec deep (by omega) stands valid short proper solving).congr ?_
      rw [growFits_zero]
      exact ⟨fun fits => ⟨solving.few, fits⟩, fun both => both.2⟩
    | succ arity =>
      rw [if_neg (Nat.succ_ne_zero arity)] at deep enough
      obtain ⟨⟨token, next⟩, rest, entries⟩ := List.exists_cons_of_ne_nil stands.sound.shape.children_ne_nil
      have member : (token, next) ∈ (mk leaf children).children := by rw [entries]; exact List.mem_cons_self
      have lower : next.height < (mk leaf children).height := height_child member
      obtain ⟨constant, -⟩ := stands.sound.entry member
      obtain ⟨-, belowConstants⟩ := stands.constants.entry member
      obtain ⟨type, off, child, size, few, typed, first, offset, converted, represents, -⟩ :=
        firstEntry_eq stands.represents stands.sound.shape entries
      obtain ⟨fuel, rfl⟩ : ∃ more, fuel = more + 3 := ⟨fuel - 3, by omega⟩
      -- every round is at a node further down
      have grows : ∀ later, RestoredVar ctxt later → word.length < maxVarInstantiationSize →
          Within resultCb pattern (GrowFits (envOf ctxt) ctxt.solvingVarId ctxt.queryStack word (arity + 1)
              (mk leaf children)) (RestoredVar (grown later word token child))
            (matchVarToIndex handle.image resultCb (fuel + 2) (arity + token.arity)
              (grown later word token child)) := by
        intro later back fits
        have solvingLater := solving.restored back
        have env := env_grown solving back token child
        have deepNext : if arity + token.arity = 0 then next.height < height else next.height ≤ height := by
          split <;> omega
        have enoughNext : 3 * next.height + (if arity + token.arity = 0 then 5 else 3) ≤ fuel + 2 := by
          split <;> omega
        have standing : StandsAmong handle next (opened + (arity + token.arity)) (grown later word token child) := by
          refine ⟨stands.toStands.grow solving back member represents, ?_⟩
          rw [← Nat.add_assoc]
          exact belowConstants
        have query : (grown later word token child).queryStack = ctxt.queryStack := back.queryStack
        have solvingId : (grown later word token child).solvingVarId = ctxt.solvingVarId := back.solvingVarId
        have within := ih (token, next) member deepNext enoughNext standing (by rw [solvingId]; exact valid)
          (by rw [query]; exact short) (by rw [query]; exact proper) (solvingLater.push constant fits child)
        rw [env, query, solvingId] at within
        exact within.congr (growFits_succ entries).symm
      have full : ¬word.length < maxVarInstantiationSize →
          ¬GrowFits (envOf ctxt) ctxt.solvingVarId ctxt.queryStack word (arity + 1) (mk leaf children) :=
        not_growFits stands.sound.shape
      have round : ∀ (_ : Nat) later, RestoredVar ctxt later → _ := fun _ later back =>
        within_growRound solving constant first offset converted full grows back
      rw [matchVarToIndex_succ_eq _ _ _ stands.indexStack, varAt, if_pos valid, size, typed]
      show Within _ _ _ _ (Engine.forEach _ (List.range ((rest.length + 1) % 2 ^ 32)) ctxt)
      rw [Nat.mod_eq_of_lt (by omega)]
      refine (Within.forEach round (List.range (rest.length + 1)) (RestoredVar.refl ctxt)).congr ?_
      exact ⟨fun some => some (by simp), fun fits _ => fits⟩

/-- **A variable of the query that is not solved** grows along the index. -/
theorem within_unsolved {fuel height : Nat} {node : TmpIndexNode}
    (spec : ProcessWithin handle resultCb pattern height) (deep : node.height ≤ height)
    (enough : 3 * node.height + 3 ≤ fuel) {token : EncodedToken} {rest : EncodedFormula}
    (stack : ctxt.queryStack = token :: rest) (isVar : token.isVar = true)
    (unsolved : (ctxt.vars token.id).solved = false) (stands : StandsAmong handle node (opened + 1) ctxt)
    (short : rest.length < maxQueryStackSize) (proper : pattern → Proper opened rest) :
    Within resultCb pattern (Fits (envOf ctxt) (token :: rest) node) (Restored ctxt)
      (processQueryToken handle.image resultCb (fuel + 1) ctxt) := by
  have free : envOf ctxt token.id = none := if_neg (by rw [unsolved]; exact Bool.false_ne_true)
  have fits : Fits (envOf ctxt) (token :: rest) node ↔ token.id < varIdMax ∧
      GrowFits (envOf ctxt) token.id rest [] 1 node := by
    rw [Fits, if_pos isVar, free]
    exact and_congr_right fun _ => ⟨fun all => all.2, fun grows => ⟨stands.sound.shape.children_ne_nil, grows⟩⟩
  have solving := Solving.beginning unsolved rest
  have env := env_beginning unsolved rest
  have standing : StandsAmong handle node (opened + 1) (beginning ctxt token.id rest) :=
    ⟨stands.toStands.beginning unsolved rest, stands.constants⟩
  rw [processQueryToken_var_eq handle.image _ stack isVar, varAt]
  by_cases small : token.id < varIdMax
  · rw [if_pos small]
    show Within _ _ _ _ (ite _ _ _)
    rw [if_neg (by rw [unsolved]; exact Bool.false_ne_true)]
    have deepHere : if 1 = 0 then node.height < height else node.height ≤ height := by simpa using deep
    have enoughHere : 3 * node.height + (if 1 = 0 then 5 else 3) ≤ fuel := by simpa using enough
    have within := within_matchVarToIndex spec deepHere enoughHere standing small short.le proper solving
    rw [env] at within
    refine (within.restore fun later back => ?_).congr ?_
    · have room : later.queryStack.length < maxQueryStackSize := by
        rw [back.queryStack]
        exact short
      refine ⟨_, revertQuery_of_lt token room, ?_, back.currIndexInode, back.indexStack, back.env.trans env⟩
      exact (congrArg (token :: ·) back.queryStack).trans stack.symm
    · rw [fits]
      exact ⟨fun grows => ⟨small, grows⟩, fun both => both.2⟩
  · rw [if_neg small]
    exact .overflow fun holds => small (fits.mp holds).1

/-- The query is used up: at a leaf the callback is called, elsewhere an assertion fails. -/
theorem within_nil {fuel : Nat} {node : TmpIndexNode} (stack : ctxt.queryStack = [])
    (stands : StandsAmong handle node opened ctxt) (proper : pattern → Proper opened []) :
    Within resultCb pattern (Fits (envOf ctxt) [] node) (Restored ctxt)
      (processQueryToken handle.image resultCb (fuel + 1) ctxt) := by
  cases opened with
  | zero =>
    obtain ⟨leaf, isLeaf⟩ : ∃ leaf, node.leaf = some leaf := by
      cases stands.sound.shape with
      | leaf leaf => exact ⟨leaf, rfl⟩
    have type := nodeType_of_leaf (stands.represents.leaf isLeaf).1
    have result : processQueryToken handle.image resultCb (fuel + 1) ctxt =
        .ok (resultCb (ctxt.calls ++ [ctxt.currIndexInode]),
          { ctxt with calls := ctxt.calls ++ [ctxt.currIndexInode] }) := by
      rw [processQueryToken, stack]
      simp only [type, read]
      rfl
    rw [result]
    refine ⟨fun _ => ⟨(fun fault other => by cases other), fun later same => ?_⟩, fun _ continuing =>
      ⟨fun _ => ⟨_, by rw [continuing]⟩, fun fails => absurd trivial fails⟩⟩
    injection same with same
    obtain rfl := (Prod.mk.inj same).2
    exact ⟨rfl, rfl, rfl, rfl⟩
  | succ opened =>
    obtain ⟨long, offsets, inner⟩ := stands.represents.inner stands.sound.shape.children_ne_nil
    have result : processQueryToken handle.image resultCb (fuel + 1) ctxt = .error .assertion := by
      rw [processQueryToken, stack]
      simp only [inner.holds.nodeType_eq, read]
      cases long <;> rfl
    rw [result]
    exact .assertion fun isPattern => absurd (proper isPattern) (fun other => by cases other)

/-- A variable behind the end of a formula that is not solved does not fit. -/
theorem not_fits_leaf {env : Env} {token : EncodedToken} {rest : EncodedFormula} {node : TmpIndexNode}
    (isVar : token.isVar = true) (free : env token.id = none) (shape : WellFormed 0 node) :
    ¬Fits env (token :: rest) node := by
  rw [Fits, if_pos isVar, free]
  rintro ⟨-, inner, -⟩
  cases shape with
  | leaf leaf => exact inner rfl

/-- **The engine stays inside its arrays** if `Fits` holds, from every context. -/
theorem processQueryToken_within (handle : IndexHandle) (resultCb : List Nat → QueryReturn) (pattern : Prop)
    (height : Nat) : ProcessWithin handle resultCb pattern height := by
  induction height with
  | zero => exact fun _ _ _ _ deep => absurd deep (Nat.not_lt_zero _)
  | succ height spec =>
    intro fuel ctxt opened node deep enough stands short proper
    have deep : node.height ≤ height := Nat.le_of_lt_succ deep
    obtain ⟨fuel, rfl⟩ : ∃ more, fuel = more + 2 := ⟨fuel - 2, by omega⟩
    cases stack : ctxt.queryStack with
    | nil =>
      rw [stack] at proper
      exact within_nil stack stands proper
    | cons token rest =>
      rw [stack, List.length_cons] at short
      rw [stack] at proper
      cases isVar : token.isVar with
      | false =>
        cases opened with
        | zero =>
          rw [processQueryToken_constant_leaf stack isVar stands]
          exact .assertion fun isPattern => absurd (proper isPattern) nofun
        | succ opened =>
          refine within_constant spec deep (by omega) stack isVar stands (by omega) fun isPattern noRange => ?_
          have whole := proper isPattern
          rw [Proper, isVar, noRange] at whole
          simpa using whole
      | true =>
        cases solved : (ctxt.vars token.id).solved with
        | true => exact within_solved spec deep (by omega) stack isVar solved stands (by omega) proper
        | false =>
          cases opened with
          | zero =>
            have free : envOf ctxt token.id = none := if_neg (by rw [solved]; exact Bool.false_ne_true)
            have fails : ¬Fits (envOf ctxt) (token :: rest) node := not_fits_leaf isVar free stands.sound.shape
            exact ⟨fun holds => absurd holds fails, fun isPattern => absurd (proper isPattern) nofun⟩
          | succ opened =>
            refine within_unsolved spec deep (by omega) stack isVar solved stands (by omega) fun isPattern => ?_
            have whole := proper isPattern
            rwa [Proper, if_pos isVar] at whole

end Variables

/-! ### Runs -/

/-- A run from the root, for a query that fits the stack. -/
theorem queryEngineRun_within {index : TmpIndex} {handle : IndexHandle} {query : EncodedFormula}
    (root : Represents Numbered handle.image index.root handle.root)
    (sound : Sound (fun token => token.isVar = false) 1 index.root)
    (constants : Sound EncodedToken.IsConstant 1 index.root) (short : query.length ≤ maxQueryStackSize)
    (resultCb : List Nat → QueryReturn) {fuel : Nat} (enough : 3 * index.root.height + 4 ≤ fuel) :
    Within resultCb (Proper 1 query) (Fits (fun _ => none) query index.root)
      (Restored ⟨query, handle.root, [], fun _ => ⟨false, []⟩, 0, []⟩)
      (queryEngineRun handle query resultCb fuel) := by
  rw [queryEngineRun_eq short]
  have stands : StandsAmong handle index.root 1 ⟨query, handle.root, [], fun _ => ⟨false, []⟩, 0, []⟩ :=
    ⟨⟨root, sound, rfl, nofun⟩, constants⟩
  exact processQueryToken_within handle resultCb (Proper 1 query) (index.root.height + 1) fuel _
    (Nat.lt_succ_self _) enough stands short id

/-- A query that does not fit the stack is copied over its end. -/
theorem queryEngineRun_long {handle : IndexHandle} {query : EncodedFormula} (long : ¬query.length ≤ maxQueryStackSize)
    (resultCb : List Nat → QueryReturn) (fuel : Nat) :
    queryEngineRun handle query resultCb fuel = .error .overflow := by
  rw [queryEngineRun, queryCtxtInit, if_neg long]
  rfl

theorem constants_of_built {index : TmpIndex} (built : index.Built) (nonempty : ¬ index.IsEmpty) :
    Sound EncodedToken.IsConstant 1 index.root := by
  refine ⟨built.wellFormed nonempty, fun entry member token among => ?_⟩
  have stored := (mem_leaves_iff (built.wellFormed nonempty)).mp member
  exact (built.stored stored).2 token among

/-- **The engine stays inside its arrays** on an exported index whose root starts below byte `2 ^ 34`, for every query
of at most 512 tokens for which the arrays are large enough wherever it gets to; for a query that is a pattern, only
then. -/
theorem queryEngineRun_inBounds_iff {index : TmpIndex} (built : index.Built) (nonempty : ¬ index.IsEmpty) :
    ∃ enough mswr file, (∀ fuel, enough ≤ fuel →
        index.exportToMemsector memsectorLongOffStart fuel Memsector.create = some (mswr, file)) ∧
      (MemsectorHeader.size + TmpIndex.imageSizeOf index.root.children < 2 ^ 34 →
        ∃ header, Memsector.load file = some header ∧
          ∀ query : EncodedFormula, ∃ enough, ∀ fuel, enough ≤ fuel →
            (query.length ≤ maxQueryStackSize ∧ Fits (fun _ => none) query index.root → ∀ resultCb,
              InBounds (queryEngineRun ⟨file, Memsector.getRoot header⟩ query resultCb fuel)) ∧
            (Proper 1 query → ((∀ resultCb,
                InBounds (queryEngineRun ⟨file, Memsector.getRoot header⟩ query resultCb fuel)) ↔
              query.length ≤ maxQueryStackSize ∧ Fits (fun _ => none) query index.root))) := by
  obtain ⟨enough, mswr, file, computed, exported⟩ := exported_represents built nonempty
  refine ⟨enough, mswr, file, computed, fun small => ?_⟩
  obtain ⟨header, load, root, -⟩ := exported small
  refine ⟨header, load, fun query => ⟨3 * index.root.height + 4, fun fuel more => ?_⟩⟩
  have within : query.length ≤ maxQueryStackSize → ∀ resultCb, Within resultCb _ _ _ _ := fun short resultCb =>
    @queryEngineRun_within index ⟨file, Memsector.getRoot header⟩ query root (sound_of_built built nonempty)
      (constants_of_built built nonempty) short resultCb fuel more
  have safe : query.length ≤ maxQueryStackSize ∧ Fits (fun _ => none) query index.root → ∀ resultCb,
      InBounds (queryEngineRun ⟨file, Memsector.getRoot header⟩ query resultCb fuel) :=
    fun both resultCb => ((within both.1 resultCb).safe both.2).1
  refine ⟨safe, fun isPattern => ⟨fun bounds => ?_, safe⟩⟩
  have noOverflow : queryEngineRun ⟨file, Memsector.getRoot header⟩ query (fun _ => .queryContinue) fuel ≠
      .error .overflow := fun failed => absurd (bounds _ _ failed) (by decide)
  by_cases short : query.length ≤ maxQueryStackSize
  · refine ⟨short, ?_⟩
    by_contra fails
    exact noOverflow (((within short fun _ => .queryContinue).exact isPattern fun _ => rfl).2 fails)
  · exact absurd (queryEngineRun_long short _ fuel) noOverflow

/-! ### Variables that have no entry -/

/-- **The id `VAR_ID_MAX` is a variable without an entry of `vars`**: a query does not fit that has one behind other
variables, wherever there are enough subterms. -/
theorem not_fits_beyond {bad : EncodedToken} (isVar : bad.isVar = true) (beyond : ¬bad.id < varIdMax)
    (rest : EncodedFormula) (vars : EncodedFormula) : ∀ {env : Env} {base : Nat} {node : TmpIndexNode},
      WellFormed (base + vars.length) node → (∀ token ∈ vars, token.isVar = true ∧ env token.id = none) →
      (vars.map EncodedToken.id).Nodup → ¬Fits env (vars ++ bad :: rest) node := by
  induction vars with
  | nil =>
    intro env base node _ _ _ fits
    rw [List.nil_append, Fits, if_pos isVar] at fits
    exact beyond fits.1
  | cons token vars ih =>
    intro env base node shape free distinct fits
    obtain ⟨isVar, unsolved⟩ := free token List.mem_cons_self
    obtain ⟨fresh, distinct⟩ := List.nodup_cons.mp distinct
    rw [List.cons_append, Fits, if_pos isVar, unsolved] at fits
    have shape : WellFormed ((base + vars.length) + 1) node := shape
    obtain ⟨term, among⟩ := List.exists_mem_of_ne_nil _ (firstTerms_ne_nil shape)
    have below : WellFormed (base + vars.length) term.2 := by
      obtain ⟨count, first, copies, stored, _⟩ := firstTerms_eq shape
      rw [copies] at among
      rw [List.eq_of_mem_replicate among]
      exact wellFormed_of_mem_terms shape stored
    refine ih below (fun other member => ?_) distinct (fits.2.2 term among).2
    obtain ⟨isVar, unsolved⟩ := free other (List.mem_cons_of_mem _ member)
    have different : other.id ≠ token.id := fun same => fresh (same ▸ List.mem_map_of_mem member)
    exact ⟨isVar, by rw [Function.update_of_ne different]; exact unsolved⟩

open ExpressionEncoder IdDictionary

/-- On the index of `b` and `f(f(a))`, the query `f(x)`. -/
theorem queryEngineRun_inBounds_small : ∃ enough mswr file header,
    (∀ fuel, enough ≤ fuel →
      (TmpIndex.deepIndex 1).exportToMemsector memsectorLongOffStart fuel Memsector.create = some (mswr, file)) ∧
    Memsector.load file = some header ∧ ∃ enough, ∀ fuel, enough ≤ fuel → Proper 1 [TmpIndex.unaryToken, queryVar] ∧
      ((∀ resultCb, InBounds (queryEngineRun ⟨file, Memsector.getRoot header⟩ [TmpIndex.unaryToken, queryVar] resultCb
          fuel)) ↔
        [TmpIndex.unaryToken, queryVar].length ≤ maxQueryStackSize ∧
          Fits (fun _ => none) [TmpIndex.unaryToken, queryVar] (TmpIndex.deepIndex 1).root) := by
  obtain ⟨built, nonempty⟩ := TmpIndex.deepIndex_built 1
  obtain ⟨enough, mswr, file, computed, exact⟩ := queryEngineRun_inBounds_iff built nonempty
  obtain ⟨header, load, runs⟩ := exact (by rw [TmpIndex.imageSizeOf_deepIndex]; decide)
  obtain ⟨enoughRun, bounds⟩ := runs [TmpIndex.unaryToken, queryVar]
  have proper : Proper 1 [TmpIndex.unaryToken, queryVar] := by decide
  exact ⟨enough, mswr, file, header, computed, load, enoughRun, fun fuel more =>
    ⟨proper, (bounds fuel more).2 proper⟩⟩

/-- A term with 96 arguments, as it is harvested. -/
def harvestedRow : Round .whole × Int :=
  encode .harvest (.new empty) ⟨false⟩ (.root (.mk ['r'] [] .empty (List.replicate 96 (.mk ['c'] [] .empty [])))) none

def rowIndex : TmpIndex := (TmpIndex.empty 0).insertAll [harvestedRow.1.encodedFormula]

/-- The query for it, with 96 anonymous variables. -/
def rowQuery : Round .whole × Int :=
  encode .query (.new harvestedRow.1.encoder.meaningDictionary) ⟨false⟩ (.root (anonymousTree 96)) none

/-- The variables of `rowQuery` but the last. -/
def rowVars : EncodedFormula := (List.range 95).map fun place => encodedToken (33 + place) 1

theorem rowQuery_eq : rowQuery.2 = 0 ∧
    rowQuery.1.encodedFormula = encodedToken 162 96 :: (rowVars ++ [encodedToken 128 1]) := by
  decide +kernel

theorem rowIndex_built : rowIndex.Built ∧ ¬ rowIndex.IsEmpty := by
  have code : harvestedRow.1.encodedFormula.IsPrefixCode ∧ harvestedRow.1.encodedFormula.VariableFree :=
    ⟨(isComplete_iff_closes _).mpr (by decide +kernel), by decide +kernel⟩
  obtain ⟨built, nonempty⟩ := (TmpIndex.Built.empty 0).insertAll
    (fun formula member => List.mem_singleton.mp member ▸ code)
  exact ⟨built, nonempty (List.cons_ne_nil _ _)⟩

/-- **The last of 96 anonymous variables has the id 128**, behind the end of `vars`. -/
theorem queryEngineRun_rowQuery : ∃ enough mswr file header, rowIndex.Built ∧ ¬ rowIndex.IsEmpty ∧
    (∀ fuel, enough ≤ fuel →
      rowIndex.exportToMemsector memsectorLongOffStart fuel Memsector.create = some (mswr, file)) ∧
    Memsector.load file = some header ∧ rowQuery.2 = 0 ∧ ∃ enough, ∀ fuel, enough ≤ fuel →
      queryEngineRun ⟨file, Memsector.getRoot header⟩ rowQuery.1.encodedFormula (fun _ => .queryContinue) fuel =
        .error .overflow := by
  obtain ⟨built, nonempty⟩ := rowIndex_built
  obtain ⟨enough, mswr, file, computed, exported⟩ := exported_represents built nonempty
  obtain ⟨header, load, root, -⟩ := exported (by decide +kernel)
  refine ⟨enough, mswr, file, header, built, nonempty, computed, load, rowQuery_eq.1,
    3 * rowIndex.root.height + 4, fun fuel more => ?_⟩
  rw [rowQuery_eq.2]
  have within := @queryEngineRun_within rowIndex ⟨file, Memsector.getRoot header⟩
    (encodedToken 162 96 :: (rowVars ++ [encodedToken 128 1])) root (sound_of_built built nonempty)
    (constants_of_built built nonempty) (by decide +kernel) (fun _ => .queryContinue) fuel more
  refine (within.exact (by decide +kernel) fun _ => rfl).2 fun fits => ?_
  obtain ⟨next, below⟩ := Option.isSome_iff_exists.mp
    (show (rowIndex.root.child (encodedToken 162 96)).isSome = true by decide +kernel)
  have deeper := (fits_constant (by decide)).mp fits next below
  have shape : WellFormed (0 + 96) next := (built.wellFormed nonempty).child below
  exact not_fits_beyond (by decide) (by decide) [] rowVars (show WellFormed (1 + rowVars.length) next from shape)
    (by decide +kernel) (by decide +kernel) deeper

end Engine

end MathWebSearch
