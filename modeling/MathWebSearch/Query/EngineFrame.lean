/-
**Backtracking in the engine** (`process_query_token`, `match_var_to_index`).

The functions of the engine undo their changes of the context around recursive calls that do the same. `Makes` are these
calls, as the code makes them, each with the context that it is made in; a call is reached if a run makes it, directly
or through others.

* `Reached.settled` — the calls that are reached are those of `process_query_token` and `match_var_to_index` at a node
  of the index.
* `reached_backtracks` — **every call that is reached restores its context** when it returns `QUERY_CONTINUE`.
-/

import MathWebSearch.Query.EngineRun

namespace MathWebSearch

open PrefixCode PatternWord TmpIndexNode IndexHandle

namespace Engine

/-! ### Calls -/

/-- A call of a function of the engine, in a context. -/
inductive Call where
  | processQueryToken (ctxt : QueryCtxt)
  | matchVarToIndex (arity : Nat) (ctxt : QueryCtxt)
  | matchVarToStack (onIndex : Bool) (ctxt : QueryCtxt)

/-- The result of a call. -/
def Call.run (image : List UInt8) (resultCb : List Nat → QueryReturn) (fuel : Nat) : Call → EngineResult
  | .processQueryToken ctxt => Engine.processQueryToken image resultCb fuel ctxt
  | .matchVarToIndex arity ctxt => Engine.matchVarToIndex image resultCb fuel arity ctxt
  | .matchVarToStack onIndex ctxt => Engine.matchVarToStack image resultCb fuel onIndex ctxt

/-- The child of the current node for a token: `inode_get_child` and `memsector_relOff2addr`. -/
def childAt (image : List UInt8) (curr : Nat) (token : EncodedToken) : Except EngineFault (Option Nat) := do
  let type ← read (nodeType image curr)
  let off ← (if type = longInternalNode then read (inodeLongGetChild image curr token)
    else if type = internalNode then read (inodeGetChild image curr token)
    else .error .assertion)
  if off = 0 then return none
  else
    let child ← read (relOff2addr curr off)
    return some child

section Calls

variable (image : List UInt8) (resultCb : List Nat → QueryReturn)

/-- With enough fuel, a function returns `QUERY_CONTINUE` and leaves this context. -/
def Continues (f : Nat → EngineResult) (later : QueryCtxt) : Prop :=
  ∃ enough, ∀ fuel, enough ≤ fuel → f fuel = .ok (.queryContinue, later)

/-- **The recursive calls of the engine**: one call makes another one. -/
inductive Makes : Call → Call → Prop
  | solved {ctxt : QueryCtxt} {token : EncodedToken} {query expanded : EncodedFormula} {var : VarInstantiation} :
      ctxt.queryStack = token :: query → token.isVar = true → varAt ctxt token.id = .ok var → var.solved = true →
      tokenStackPushAll query var.tokens = .ok expanded →
      Makes (.processQueryToken ctxt) (.processQueryToken { ctxt with queryStack := expanded })
  | unsolved {ctxt : QueryCtxt} {token : EncodedToken} {query : EncodedFormula} {var : VarInstantiation} :
      ctxt.queryStack = token :: query → token.isVar = true → varAt ctxt token.id = .ok var → var.solved = false →
      Makes (.processQueryToken ctxt) (.matchVarToIndex 1
        (setTokens { ctxt with queryStack := query, solvingVarId := token.id } token.id []))
  | indexVar {ctxt : QueryCtxt} {token indexToken : EncodedToken} {query indexStack pushed : EncodedFormula} :
      ctxt.queryStack = token :: query → token.isVar = false → ctxt.indexStack = indexToken :: indexStack →
      indexToken.isVar = true → tokenStackPush query token = .ok pushed →
      Makes (.processQueryToken ctxt) (.matchVarToStack false
        { ctxt with queryStack := pushed, indexStack := indexStack, solvingVarId := indexToken.id })
  | indexToken {ctxt : QueryCtxt} {token : EncodedToken} {query indexStack : EncodedFormula} :
      ctxt.queryStack = token :: query → token.isVar = false → ctxt.indexStack = token :: indexStack →
      Makes (.processQueryToken ctxt) (.processQueryToken { ctxt with queryStack := query, indexStack := indexStack })
  | child {ctxt : QueryCtxt} {token : EncodedToken} {query : EncodedFormula} {child : Nat} :
      ctxt.queryStack = token :: query → token.isVar = false → ctxt.indexStack = [] →
      childAt image ctxt.currIndexInode token = .ok (some child) →
      Makes (.processQueryToken ctxt) (.processQueryToken { ctxt with queryStack := query, currIndexInode := child })
  | hvar {ctxt later reverted before : QueryCtxt} {token : EncodedToken} {query : EncodedFormula}
      {child hvarIdMax hvarId : Nat} :
      ctxt.queryStack = token :: query → token.isVar = false → ctxt.indexStack = [] →
      childAt image ctxt.currIndexInode token = .ok (some child) →
      Continues (fun fuel => processQueryToken image resultCb fuel
        { ctxt with queryStack := query, currIndexInode := child }) later →
      revertQuery token { later with currIndexInode := ctxt.currIndexInode } = .ok (.queryContinue, reverted) →
      (∃ enough, ∀ fuel, enough ≤ fuel → inodeGetMaxVar image ctxt.currIndexInode fuel 0 = .ok hvarIdMax) →
      hvarId < hvarIdMax →
      Continues (fun fuel => forEach (fun hvarId ctxt => matchVarToStack image resultCb fuel false
        { ctxt with solvingVarId := hvarId }) (List.range hvarId) reverted) before →
      Makes (.processQueryToken ctxt) (.matchVarToStack false { before with solvingVarId := hvarId })
  | finished {ctxt : QueryCtxt} {var : VarInstantiation} : varAt ctxt ctxt.solvingVarId = .ok var →
      Makes (.matchVarToIndex 0 ctxt)
        (.processQueryToken (if var.tokens.isEmpty then ctxt else setSolved ctxt ctxt.solvingVarId true))
  | stack {ctxt : QueryCtxt} {arity : Nat} : ctxt.indexStack ≠ [] →
      Makes (.matchVarToIndex (arity + 1) ctxt) (.matchVarToStack true ctxt)
  | round {ctxt later resolved : QueryCtxt} {arity size type number off child pushedVarTokens : Nat}
      {token : EncodedToken} {resolution : Resolution} :
      ctxt.indexStack = [] → inodeSize image ctxt.currIndexInode = some size →
      nodeType image ctxt.currIndexInode = some type → number < size % 2 ^ 32 →
      -- the rounds before this one have come back
      Continues (fun fuel => forEach (fun _ => growRound image resultCb fuel (arity + 1) ctxt.solvingVarId
        ctxt.currIndexInode type) (List.range number) ctxt) later →
      entryToken image ctxt.currIndexInode (decide (type = longInternalNode)) 0 = some token →
      entryOff image ctxt.currIndexInode (decide (type = longInternalNode)) 0 = some off →
      (∃ enough, ∀ fuel, enough ≤ fuel →
        resolve ctxt.solvingVarId fuel later [token] 0 = .ok (resolution, resolved, pushedVarTokens)) →
      resolution ≠ .infinite → relOff2addr resolved.currIndexInode off = some child →
      Makes (.matchVarToIndex (arity + 1) ctxt)
        (.matchVarToIndex ((arity + 1 + token.arity - 1) % 2 ^ 32) { resolved with currIndexInode := child })
  | matched {ctxt resolved : QueryCtxt} {onIndex : Bool} {popped left : EncodedFormula} {resolution : Resolution}
      {pushed : Nat} : popTerm (if onIndex then ctxt.indexStack else ctxt.queryStack) 1 = .ok (popped, left) →
      (∃ enough, ∀ fuel, enough ≤ fuel → resolve ctxt.solvingVarId fuel
        (if onIndex then { ctxt with indexStack := left } else { ctxt with queryStack := left }) popped 0 =
          .ok (resolution, resolved, pushed)) →
      resolution ≠ .infinite →
      Makes (.matchVarToStack onIndex ctxt) (.processQueryToken (setSolved resolved ctxt.solvingVarId
        (match resolution with | .finished => true | _ => false)))

/-- **The calls that a run makes.** -/
inductive Reached (start : QueryCtxt) : Call → Prop
  | start : Reached start (.processQueryToken start)
  | makes {call made : Call} : Reached start call → Makes image resultCb call made → Reached start made

end Calls

/-! ### Restored contexts -/

/-- The stacks, the node, the flags of all variables and the tokens of those that are solved are what they were. -/
structure Backtracked (ctxt ctxt' : QueryCtxt) : Prop where
  queryStack : ctxt'.queryStack = ctxt.queryStack
  indexStack : ctxt'.indexStack = ctxt.indexStack
  currIndexInode : ctxt'.currIndexInode = ctxt.currIndexInode
  solved : ∀ id, (ctxt'.vars id).solved = (ctxt.vars id).solved
  tokens : ∀ id, (ctxt.vars id).solved = true → (ctxt'.vars id).tokens = (ctxt.vars id).tokens

/-- What a call restores: `match_var_to_index` also the variable that is being solved. -/
def Call.Backtracks : Call → QueryCtxt → Prop
  | .processQueryToken ctxt, ctxt' => Backtracked ctxt ctxt'
  | .matchVarToIndex _ ctxt, ctxt' => Backtracked ctxt ctxt' ∧ ctxt'.solvingVarId = ctxt.solvingVarId ∧
      (ctxt'.vars ctxt.solvingVarId).tokens = (ctxt.vars ctxt.solvingVarId).tokens
  | .matchVarToStack _ _, _ => True

theorem Restored.backtracked {ctxt ctxt' : QueryCtxt} (restored : Restored ctxt ctxt') : Backtracked ctxt ctxt' := by
  have each : ∀ id, envOf ctxt' id = envOf ctxt id := congrFun restored.env
  refine ⟨restored.queryStack, restored.indexStack, restored.currIndexInode, fun id => ?_, fun id isSolved => ?_⟩
  · have here := congrArg Option.isSome (each id)
    unfold envOf at here
    cases before : (ctxt.vars id).solved <;> cases after : (ctxt'.vars id).solved <;> simp_all
  · have here := each id
    have found : envOf ctxt id = some (ctxt.vars id).tokens := if_pos isSolved
    exact tokens_of_envOf (here.trans found)

theorem Explores.back {handle : IndexHandle} {resultCb : List Nat → QueryReturn} {address : Nat} {calls : List Nat}
    {words : List EncodedFormula} {Back : QueryCtxt → Prop} {result : EngineResult} {later : QueryCtxt}
    (explores : Explores handle resultCb address calls words Back result)
    (returned : result = .ok (.queryContinue, later)) : Back later := by
  rcases explores with failed | ⟨ret, ctxt, _, _, _, computed, _, _, _, _, back⟩
  · rw [failed] at returned
    cases returned
  · rw [computed] at returned
    injection returned with returned
    obtain ⟨rfl, rfl⟩ := Prod.mk.inj returned
    exact (back rfl).2

/-! ### Calls that are reached -/

section Settled

variable {handle : IndexHandle} {resultCb : List Nat → QueryReturn} {height : Nat}

/-- **A call at a node of the index**, with a query that fits; `match_var_to_index` with a variable that has grown so
far. -/
def Call.Settled (handle : IndexHandle) (height : Nat) : Call → Prop
  | .processQueryToken ctxt => ∃ node opened, node.height ≤ height ∧ Ready handle node opened ctxt
  | .matchVarToIndex arity ctxt => ∃ node opened word, node.height ≤ height ∧ Stands handle node (opened + arity) ctxt ∧
      Closes queryArity opened ctxt.queryStack ∧ Solving ctxt arity word
  | .matchVarToStack _ _ => False

/-- **A settled call restores its context.** -/
theorem Call.Settled.backtracks {call : Call} (settled : call.Settled handle height) {fuel : Nat}
    (enough : 3 * height + 5 ≤ fuel) {later : QueryCtxt}
    (returned : call.run handle.image resultCb fuel = .ok (.queryContinue, later)) : call.Backtracks later := by
  cases call with
  | processQueryToken ctxt =>
    obtain ⟨node, opened, deep, ready⟩ := settled
    have explores := processQueryToken_spec handle resultCb (height + 1) fuel ctxt (Nat.lt_succ_of_le deep) (by omega)
      ready
    exact (explores.back returned).backtracked
  | matchVarToIndex arity ctxt =>
    obtain ⟨node, opened, word, deep, stands, closes, solving⟩ := settled
    have deepHere : if arity = 0 then node.height < height + 1 else node.height ≤ height + 1 := by
      split <;> omega
    have enoughHere : 3 * node.height + (if arity = 0 then 5 else 3) ≤ fuel := by
      split <;> omega
    have explores := matchVarToIndex_spec (processQueryToken_spec handle resultCb (height + 1)) _ _ _ _ _ deepHere
      enoughHere stands closes solving
    have back := explores.back returned
    exact ⟨back.backtracked, back.solvingVarId, congrArg VarInstantiation.tokens back.var⟩
  | matchVarToStack onIndex ctxt => exact settled.elim

/-- The child of a node of the index. -/
theorem Stands.childAt_eq {node : TmpIndexNode} {opened : Nat} {ctxt : QueryCtxt} {token : EncodedToken} {child : Nat}
    (stands : Stands handle node (opened + 1) ctxt)
    (found : childAt handle.image ctxt.currIndexInode token = .ok (some child)) :
    ∃ next, node.child token = some next ∧ Represents Numbered handle.image next child := by
  obtain ⟨type, off, typed, searched, outcome⟩ := stands.child token
  rw [childAt, typed] at found
  have expanded : (Except.bind (if type = longInternalNode then
        read (inodeLongGetChild handle.image ctxt.currIndexInode token)
      else if type = internalNode then read (inodeGetChild handle.image ctxt.currIndexInode token)
      else .error .assertion) fun off => if off = 0 then .ok none
        else Except.bind (read (relOff2addr ctxt.currIndexInode off)) fun child => .ok (some child)) =
      .ok (some child) := found
  rw [searched] at expanded
  rcases outcome with ⟨rfl, _⟩ | ⟨nonnull, next, address, below, represents, converted, _⟩
  · cases expanded
  · have last : (if off = 0 then .ok none
        else Except.bind (read (relOff2addr ctxt.currIndexInode off)) fun child => .ok (some child)) =
        (.ok (some child) : Except EngineFault (Option Nat)) := expanded
    rw [if_neg nonnull, converted] at last
    have same : (.ok (some address) : Except EngineFault (Option Nat)) = .ok (some child) := last
    obtain rfl := Option.some.inj (Except.ok.inj same)
    exact ⟨next, below, represents⟩

theorem varAt_eq {ctxt : QueryCtxt} {id : Nat} {var : VarInstantiation} (found : varAt ctxt id = .ok var) :
    ctxt.vars id = var := by
  unfold varAt at found
  split at found
  · exact Except.ok.inj found
  · cases found

/-- Behind a query token, a subterm is open. -/
theorem Ready.cons {node : TmpIndexNode} {opened : Nat} {ctxt : QueryCtxt} {token : EncodedToken}
    {query : EncodedFormula} (ready : Ready handle node opened ctxt) (stack : ctxt.queryStack = token :: query) :
    ∃ less, opened = less + 1 ∧ Closes queryArity (less + queryArity token) query := by
  have closes := ready.closes
  rw [stack] at closes
  cases opened with
  | zero => exact closes.elim
  | succ less => exact ⟨less, rfl, closes_cons.mp closes⟩

/-- The calls that a settled call of `process_query_token` makes. -/
theorem settled_of_process {ctxt : QueryCtxt} {made : Call} (settled : (Call.processQueryToken ctxt).Settled handle height)
    (makes : Makes handle.image resultCb (.processQueryToken ctxt) made) : made.Settled handle height := by
  obtain ⟨node, opened, deep, ready⟩ := settled
  cases makes with
  | @solved _ token query expanded var stack isVar found solved pushed =>
    obtain ⟨less, rfl, closes⟩ := ready.cons stack
    rw [queryArity_of_var isVar, Nat.add_zero] at closes
    obtain rfl := varAt_eq found
    have bound : envOf ctxt token.id = some (ctxt.vars token.id).tokens := if_pos solved
    rcases tokenStackPushAll_eq query (ctxt.vars token.id).tokens with failed | expansion
    · rw [failed] at pushed
      cases pushed
    · obtain rfl := Except.ok.inj (expansion.symm.trans pushed)
      exact ⟨node, less + 1, deep, ready.toStands.expand bound closes⟩
  | @unsolved _ token query var stack isVar found unsolved =>
    obtain ⟨less, rfl, closes⟩ := ready.cons stack
    rw [queryArity_of_var isVar, Nat.add_zero] at closes
    obtain rfl := varAt_eq found
    exact ⟨node, less, [], deep, ready.toStands.beginning unsolved query, closes, .beginning unsolved query⟩
  | indexVar _ _ index => exact absurd (ready.indexStack.symm.trans index) (List.cons_ne_nil _ _).symm
  | indexToken _ _ index => exact absurd (ready.indexStack.symm.trans index) (List.cons_ne_nil _ _).symm
  | @child _ token query child stack constant empty found =>
    obtain ⟨less, rfl, closes⟩ := ready.cons stack
    rw [queryArity_of_constant constant] at closes
    obtain ⟨next, below, represents⟩ := ready.toStands.childAt_eq found
    have lower := height_child ((VectorMap.find_eq_some_iff ready.sound.shape.sorted).mp below)
    exact ⟨next, less + token.arity, by omega, ⟨represents, ready.sound.child below, ready.indexStack, ready.terms⟩, closes⟩
  | @hvar _ _ _ _ token query child hvarIdMax hvarId stack constant empty found _ _ most below _ =>
    obtain ⟨less, rfl, _⟩ := ready.cons stack
    obtain ⟨long, offsets, inner⟩ := ready.represents.inner ready.sound.shape.children_ne_nil
    obtain ⟨enough, most⟩ := most
    -- the first entry is no variable
    have none := most (enough + 1) (Nat.le_succ _)
    rw [inodeGetMaxVar_eq inner ready.sound] at none
    obtain rfl := Except.ok.inj none
    exact absurd below (Nat.not_lt_zero _)

/-- The rounds of the loop of `match_var_to_index` restore its context. -/
theorem rounds_back {ctxt later : QueryCtxt} {node next : TmpIndexNode} {token : EncodedToken} {word : EncodedFormula}
    {opened arity type off child number : Nat} (deep : node.height ≤ height)
    (stands : Stands handle node (opened + (arity + 1)) ctxt) (closes : Closes queryArity opened ctxt.queryStack)
    (solving : Solving ctxt (arity + 1) word) (member : (token, next) ∈ node.children)
    (first : entryToken handle.image ctxt.currIndexInode (decide (type = longInternalNode)) 0 = some token)
    (offset : entryOff handle.image ctxt.currIndexInode (decide (type = longInternalNode)) 0 = some off)
    (converted : relOff2addr ctxt.currIndexInode off = some child)
    (represents : Represents Numbered handle.image next child)
    (reached : reach handle [token] ctxt.currIndexInode = some child)
    (before : Continues (fun fuel => forEach (fun _ => growRound handle.image resultCb fuel (arity + 1)
      ctxt.solvingVarId ctxt.currIndexInode type) (List.range number) ctxt) later) : RestoredVar ctxt later := by
  obtain ⟨enough, before⟩ := before
  have lower := height_child member
  have spec : GrowSpec handle resultCb (height + 1) next :=
    matchVarToIndex_spec (processQueryToken_spec handle resultCb (height + 1))
  have rounds := Explores.forEach (fun (_ : Nat) later back => spec.round (by omega)
    (le_max_left (3 * next.height + 3) enough) stands closes solving member first offset converted represents reached
    back) (List.range number) (RestoredVar.refl ctxt)
  exact rounds.back (before _ (le_trans (le_max_right _ _) (Nat.le_add_right _ 2)))

/-- The calls that a settled call of `match_var_to_index` makes. -/
theorem settled_of_match {arity : Nat} {ctxt : QueryCtxt} {made : Call}
    (settled : (Call.matchVarToIndex arity ctxt).Settled handle height)
    (makes : Makes handle.image resultCb (.matchVarToIndex arity ctxt) made) : made.Settled handle height := by
  obtain ⟨node, opened, word, deep, stands, closes, solving⟩ := settled
  cases makes with
  | @finished _ var found =>
    obtain rfl := varAt_eq found
    obtain ⟨token, rest, split, _⟩ := solving.isTerm.1.exists_cons
    rw [solving.var, if_neg (by rw [split]; exact Bool.false_ne_true)]
    exact ⟨node, opened, deep, stands.finish solving, closes⟩
  | stack index => exact absurd stands.indexStack index
  | @round _ later resolved arity size type number off child pushed token resolution _ _ typed _ before first offset
      resolves finite converted =>
    obtain ⟨⟨token', next⟩, rest, entries⟩ := List.exists_cons_of_ne_nil stands.sound.shape.children_ne_nil
    have member : (token', next) ∈ node.children := by rw [entries]; exact List.mem_cons_self
    obtain ⟨type', off', child', _, _, typed', first', offset', converted', represents, reached⟩ :=
      firstEntry_eq stands.represents stands.sound.shape entries
    obtain rfl := Option.some.inj (typed'.symm.trans typed)
    obtain rfl := Option.some.inj (first'.symm.trans first)
    obtain rfl := Option.some.inj (offset'.symm.trans offset)
    have back := rounds_back deep stands closes solving member first offset converted' represents reached before
    have constant := (stands.sound.entry member).1
    have lower := height_child member
    obtain ⟨enough, resolves⟩ := resolves
    -- a constant is saved
    have saved := resolves (enough + 2) (Nat.le_add_right _ _)
    rw [resolve_constant _ constant, ← back.solvingVarId, (solving.restored back).var] at saved
    by_cases fits : word.length < maxVarInstantiationSize
    · rw [if_pos fits] at saved
      obtain ⟨rfl, rest⟩ := Prod.mk.inj (Except.ok.inj saved)
      obtain ⟨rfl, rfl⟩ := Prod.mk.inj rest
      have small : (arity + 1 + token'.arity - 1) % 2 ^ 32 = arity + token'.arity := by
        have := solving.small
        have := token'.arity_lt
        rw [maxVarInstantiationSize] at fits
        omega
      have same : child' = child := by
        have here : relOff2addr later.currIndexInode off' = some child := converted
        rw [back.currIndexInode] at here
        exact Option.some.inj (converted'.symm.trans here)
      subst same
      rw [small]
      refine ⟨next, opened, word ++ [token'], by omega, stands.grow solving back member represents, ?_,
        (solving.restored back).push constant fits child'⟩
      show Closes queryArity opened later.queryStack
      rw [back.queryStack]
      exact closes
    · rw [if_neg fits] at saved
      cases saved

/-- **The calls that are reached are settled.** -/
theorem Reached.settled {start : QueryCtxt} (settled : (Call.processQueryToken start).Settled handle height) {call : Call}
    (reached : Reached handle.image resultCb start call) : call.Settled handle height := by
  induction reached with
  | start => exact settled
  | @makes call made _ makes ih =>
    cases call with
    | processQueryToken ctxt => exact settled_of_process ih makes
    | matchVarToIndex arity ctxt => exact settled_of_match ih makes
    | matchVarToStack onIndex ctxt => exact ih.elim

end Settled

/-- **Backtracking restores the context.** For every index of variable-free formulas that an image represents, every
complete query and every callback: whenever a call that a run makes, directly or through others, of
`process_query_token` or `match_var_to_index` returns `QUERY_CONTINUE`, the context is restored; `match_var_to_index`
also leaves the variable that is being solved unchanged. -/
theorem reached_backtracks {index : TmpIndex} (built : index.Built) (nonempty : ¬ index.IsEmpty) {handle : IndexHandle}
    (root : Represents Numbered handle.image index.root handle.root) {query : EncodedFormula}
    (complete : IsComplete queryArity query) {start : QueryCtxt} (init : queryCtxtInit handle query = .ok start)
    (resultCb : List Nat → QueryReturn) :
    ∃ enough, ∀ call, Reached handle.image resultCb start call → ∀ fuel, enough ≤ fuel → ∀ later,
      call.run handle.image resultCb fuel = .ok (.queryContinue, later) → call.Backtracks later := by
  have ready : Ready handle index.root 1 start := by
    unfold queryCtxtInit at init
    split at init
    · obtain rfl := Except.ok.inj init
      exact ⟨⟨root, sound_of_built built nonempty, rfl, nofun⟩, (isComplete_iff_closes query).mp complete⟩
    · cases init
  exact ⟨_, fun call reached fuel enough later => (reached.settled ⟨_, _, le_rfl, ready⟩).backtracks enough⟩

/-- On the index of `b` and `f(f(a))`, the query `f(x)`. -/
theorem reached_backtracks_small : ∃ header file start enough, Memsector.load file = some header ∧
    queryCtxtInit ⟨file, Memsector.getRoot header⟩ [TmpIndex.unaryToken, queryVar] = .ok start ∧
    ∀ call, Reached file (fun _ => .queryContinue) start call → ∀ fuel, enough ≤ fuel → ∀ later,
      call.run file (fun _ => .queryContinue) fuel = .ok (.queryContinue, later) → call.Backtracks later := by
  obtain ⟨built, nonempty⟩ := TmpIndex.deepIndex_built 1
  obtain ⟨_, _, file, _, exported⟩ := exported_represents built nonempty
  obtain ⟨header, load, root, _⟩ := exported (by rw [TmpIndex.imageSizeOf_deepIndex]; decide)
  have init : queryCtxtInit ⟨file, Memsector.getRoot header⟩ [TmpIndex.unaryToken, queryVar] = .ok _ :=
    if_pos (by decide)
  obtain ⟨enough, backtracks⟩ := @reached_backtracks _ built nonempty ⟨file, Memsector.getRoot header⟩ root _
    ((isComplete_iff_closes _).mpr (by decide)) _ init fun _ => .queryContinue
  exact ⟨header, file, _, enough, load, init, backtracks⟩

end Engine

end MathWebSearch
