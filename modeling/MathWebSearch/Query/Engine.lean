/-
**The experimental query engine** (`mws/query/engine.c`).

The engine matches a query against the exported index by recursion: `process_query_token` takes the next
token off the query stack, `match_var_to_index` lets a variable grow along the index, and
`match_var_to_stack` matches a variable of the index against a stack of tokens. All of them share one mutable
context, which is passed along here. A leaf that is reached is handed to the result callback; the model keeps
the list of these calls, and a callback is any function of the calls made so far.

What goes wrong is told apart: a failed `assert`, an access outside one of the fixed arrays (`overflow`),
any other undefined behaviour, and recursion that is deeper than the fuel.
-/

import MathWebSearch.Index.IndexAccessor

namespace MathWebSearch

open IndexHandle

/-- `result_cb_return_t`. -/
inductive QueryReturn where
  | queryContinue
  | queryStop
  | queryError
deriving DecidableEq

/-- The ways in which a run can go wrong. -/
inductive EngineFault where
  | assertion
  | overflow
  | undefined
  | outOfFuel
deriving DecidableEq

/-- `MAX_VAR_INSTATIATION_SIZE`. -/
def maxVarInstantiationSize : Nat := 256

/-- `MAX_QUERY_STACK_SIZE`. -/
def maxQueryStackSize : Nat := 512

/-- `var_instantiation_t`: the first `num_tokens` of its tokens. -/
structure VarInstantiation where
  solved : Bool
  tokens : List EncodedToken

/-- `query_ctxt_t`, stacks with their top first, and the leaves handed to the callback. -/
structure QueryCtxt where
  queryStack : List EncodedToken
  currIndexInode : Nat
  indexStack : List EncodedToken
  vars : Nat → VarInstantiation
  solvingVarId : Nat
  calls : List Nat

/-- What a function of the engine returns. -/
abbrev EngineResult := Except EngineFault (QueryReturn × QueryCtxt)

namespace Engine

/-- Reading the image. -/
def read {α : Type} : Option α → Except EngineFault α
  | some value => .ok value
  | none => .error .undefined

/-- `if (ret != QUERY_CONTINUE) return ret;` and what comes behind it. -/
def onContinue (result : EngineResult) (onward : QueryCtxt → EngineResult) : EngineResult :=
  match result with
  | .ok (.queryContinue, ctxt) => onward ctxt
  | other => other

/-- A `for` loop whose body may return early. -/
def forEach {α : Type} (body : α → QueryCtxt → EngineResult) : List α → QueryCtxt → EngineResult
  | [], ctxt => .ok (.queryContinue, ctxt)
  | item :: rest, ctxt => onContinue (body item ctxt) (forEach body rest)

/-- `token_stack_push`. -/
def tokenStackPush (stack : List EncodedToken) (token : EncodedToken) : Except EngineFault (List EncodedToken) :=
  if stack.length < maxQueryStackSize then .ok (token :: stack) else .error .overflow

/-- Pushing tokens from the last to the first. -/
def tokenStackPushAll (stack tokens : List EncodedToken) : Except EngineFault (List EncodedToken) :=
  tokens.reverse.foldlM tokenStackPush stack

/-- The query token goes back on its stack at the end of `process_query_token`. -/
def revertQuery (queryToken : EncodedToken) (ctxt : QueryCtxt) : EngineResult := do
  let queryStack ← tokenStackPush ctxt.queryStack queryToken
  return (.queryContinue, { ctxt with queryStack })

/-- The same for the token of the index stack. -/
def revertIndex (indexToken : EncodedToken) (ctxt : QueryCtxt) : EngineResult := do
  let indexStack ← tokenStackPush ctxt.indexStack indexToken
  return (.queryContinue, { ctxt with indexStack })

/-- `token_stack_pop_many`. -/
def tokenStackPopMany (stack : List EncodedToken) (toPop : Nat) : Except EngineFault (List EncodedToken) :=
  if toPop ≤ stack.length then .ok (stack.drop toPop) else .error .assertion

/-- `query_ctxt->vars[id]`; the array has `VAR_ID_MAX` entries. -/
def varAt (ctxt : QueryCtxt) (id : Nat) : Except EngineFault VarInstantiation :=
  if id < varIdMax then .ok (ctxt.vars id) else .error .overflow

/-- Writing to `query_ctxt->vars[id]`. -/
def setVar (ctxt : QueryCtxt) (id : Nat) (var : VarInstantiation) : QueryCtxt :=
  { ctxt with vars := Function.update ctxt.vars id var }

/-- `vars[id].solved = solved`. -/
def setSolved (ctxt : QueryCtxt) (id : Nat) (solved : Bool) : QueryCtxt :=
  setVar ctxt id { ctxt.vars id with solved }

/-- `vars[id].tokens` and `num_tokens`. -/
def setTokens (ctxt : QueryCtxt) (id : Nat) (tokens : List EncodedToken) : QueryCtxt :=
  setVar ctxt id { ctxt.vars id with tokens }

/-- `inode_get_max_var`, from the entry `i` on; it reads the entries of a short node. -/
def inodeGetMaxVar (image : List UInt8) (inode : Nat) : Nat → Nat → Except EngineFault Nat
  | 0, _ => .error .outOfFuel
  | fuel + 1, i => do
    let token ← read (entryToken image inode false i)
    if token.id ≤ varIdMax then inodeGetMaxVar image inode fuel (i + 1) else return i

/-- How the loop that simplifies `var_stack` ends. -/
inductive Resolution where
  | finished
  | selfReference
  | infinite

/-- The loop over `var_stack`: solved variables are replaced, everything else is saved to the instantiation
of `varId`. The last component counts the tokens saved. -/
def resolve (varId : Nat) : Nat → QueryCtxt → List EncodedToken → Nat →
    Except EngineFault (Resolution × QueryCtxt × Nat)
  | 0, _, _, _ => .error .outOfFuel
  | _ + 1, ctxt, [], pushed => .ok (.finished, ctxt, pushed)
  | fuel + 1, ctxt, token :: varStack, pushed =>
    let tokens := (ctxt.vars varId).tokens
    let save := if tokens.length < maxVarInstantiationSize then
        resolve varId fuel (setTokens ctxt varId (tokens ++ [token])) varStack (pushed + 1)
      else .error .overflow
    if token.isVar then
      if token.id = ctxt.solvingVarId then
        .ok (if varStack.isEmpty && tokens.isEmpty then .selfReference else .infinite, ctxt, pushed)
      else do
        let solvedVar ← varAt ctxt token.id
        if solvedVar.solved then
          let varStack ← tokenStackPushAll varStack solvedVar.tokens
          resolve varId fuel ctxt varStack pushed
        else save
    else save

/-- The tokens `match_var_to_stack` pops until `arity` subterms are complete, and what is left. -/
def popTerm : List EncodedToken → Int → Except EngineFault (List EncodedToken × List EncodedToken)
  | [], arity => if 0 < arity then .error .undefined else .ok ([], [])
  | token :: stack, arity =>
    if 0 < arity then do
      let (popped, left) ← popTerm stack (arity + ((token.arity : Int) - 1))
      return (token :: popped, left)
    else .ok ([], token :: stack)

section Functions

variable (image : List UInt8) (resultCb : List Nat → QueryReturn)

mutual

/-- `process_query_token`. -/
def processQueryToken : Nat → QueryCtxt → EngineResult
  | 0, _ => .error .outOfFuel
  | fuel + 1, ctxt =>
    match ctxt.queryStack with
    | [] => do
      -- reached a leaf
      let type ← read (nodeType image ctxt.currIndexInode)
      if type = leafNodeType then
        let calls := ctxt.calls ++ [ctxt.currIndexInode]
        return (resultCb calls, { ctxt with calls })
      else .error .assertion
    | queryToken :: query =>
      let ctxt := { ctxt with queryStack := query }
      if queryToken.isVar then do
        let varId := queryToken.id
        let var ← varAt ctxt varId
        if var.solved then
          let expanded ← tokenStackPushAll query var.tokens
          onContinue (processQueryToken fuel { ctxt with queryStack := expanded }) fun ctxt => do
            let query ← tokenStackPopMany ctxt.queryStack var.tokens.length
            revertQuery queryToken { ctxt with queryStack := query }
        else
          let ctxt := setTokens { ctxt with solvingVarId := varId } varId []
          onContinue (matchVarToIndex fuel 1 ctxt) (revertQuery queryToken)
      else
        match ctxt.indexStack with
        | indexToken :: indexStack =>
          let ctxt := { ctxt with indexStack }
          if indexToken.isVar then do
            let query ← tokenStackPush ctxt.queryStack queryToken
            let ctxt := { ctxt with queryStack := query, solvingVarId := indexToken.id }
            onContinue (matchVarToStack fuel false ctxt) (revertIndex indexToken)
          else if queryToken = indexToken then
            onContinue (onContinue (processQueryToken fuel ctxt) (revertQuery queryToken)) (revertIndex indexToken)
          else onContinue (revertQuery queryToken ctxt) (revertIndex indexToken)
        | [] => do
          let curr := ctxt.currIndexInode
          let type ← read (nodeType image curr)
          let off ← (if type = longInternalNode then read (inodeLongGetChild image curr queryToken)
            else if type = internalNode then read (inodeGetChild image curr queryToken)
            else .error .assertion)
          if off = 0 then revertQuery queryToken ctxt
          else
            let child ← read (relOff2addr curr off)
            onContinue (processQueryToken fuel { ctxt with currIndexInode := child }) fun ctxt =>
              onContinue (revertQuery queryToken { ctxt with currIndexInode := curr }) fun ctxt => do
                let hvarIdMax ← inodeGetMaxVar image curr fuel 0
                forEach (fun hvarId ctxt => matchVarToStack fuel false { ctxt with solvingVarId := hvarId })
                  (List.range hvarIdMax) ctxt

/-- `match_var_to_index`. -/
def matchVarToIndex : Nat → Nat → QueryCtxt → EngineResult
  | 0, _, _ => .error .outOfFuel
  | fuel + 1, arity, ctxt => do
    let varId := ctxt.solvingVarId
    let var ← varAt ctxt varId
    if arity = 0 then
      let ctxt := if var.tokens.isEmpty then ctxt else setSolved ctxt varId true
      onContinue (processQueryToken fuel ctxt) fun ctxt =>
        .ok (.queryContinue, setSolved { ctxt with solvingVarId := varId } varId false)
    else if !ctxt.indexStack.isEmpty then matchVarToStack fuel true ctxt
    else
      let node := ctxt.currIndexInode
      let size ← read (inodeSize image node)
      let type ← read (nodeType image node)
      let long := decide (type = longInternalNode)
      -- neither `data` nor `long_data` is advanced: every round reads the first entry
      forEach (fun _ ctxt => do
          let entryToken ← read (entryToken image node long 0)
          let entryOff ← read (entryOff image node long 0)
          let (resolution, ctxt, pushedVarTokens) ← resolve varId fuel ctxt [entryToken] 0
          match resolution with
          -- `goto revert_index` jumps over the initialisation of `curr`
          | .infinite => .error .undefined
          | _ =>
            let curr := ctxt.currIndexInode
            let child ← read (relOff2addr curr entryOff)
            onContinue (matchVarToIndex fuel ((arity + entryToken.arity - 1) % 2 ^ 32)
                { ctxt with currIndexInode := child }) fun ctxt =>
              let tokens := (ctxt.vars varId).tokens
              .ok (.queryContinue, setTokens { ctxt with currIndexInode := curr } varId
                (tokens.take (tokens.length - pushedVarTokens))))
        (List.range (size % 2 ^ 32)) ctxt

/-- `match_var_to_stack`, on the index stack or, as `match_var_to_query` calls it, on the query stack. -/
def matchVarToStack : Nat → Bool → QueryCtxt → EngineResult
  | 0, _, _ => .error .outOfFuel
  | fuel + 1, onIndex, ctxt => do
    let varId := ctxt.solvingVarId
    let _ ← varAt ctxt varId
    let (popped, left) ← popTerm (if onIndex then ctxt.indexStack else ctxt.queryStack) 1
    let ctxt := if onIndex then { ctxt with indexStack := left } else { ctxt with queryStack := left }
    let revert (ctxt : QueryCtxt) : EngineResult := do
      let ctxt := setSolved ctxt varId false
      if onIndex then
        let indexStack ← tokenStackPushAll ctxt.indexStack popped
        return (.queryContinue, { ctxt with indexStack })
      else
        let queryStack ← tokenStackPushAll ctxt.queryStack popped
        return (.queryContinue, { ctxt with queryStack })
    let (resolution, ctxt, _) ← resolve varId fuel ctxt popped 0
    match resolution with
    | .infinite => revert ctxt
    | .finished => onContinue (processQueryToken fuel (setSolved ctxt varId true)) revert
    | .selfReference => onContinue (processQueryToken fuel (setSolved ctxt varId false)) revert

end

/-- `query_ctxt_init`; the query has to fit the stack. -/
def queryCtxtInit (handle : IndexHandle) (query : EncodedFormula) : Except EngineFault QueryCtxt :=
  if query.length ≤ maxQueryStackSize then
    .ok ⟨query, handle.root, [], fun _ => ⟨false, []⟩, 0, []⟩
  else .error .overflow

end Functions

/-- `query_engine_run`. -/
def queryEngineRun (handle : IndexHandle) (query : EncodedFormula) (resultCb : List Nat → QueryReturn)
    (fuel : Nat) : EngineResult := do
  let ctxt ← queryCtxtInit handle query
  processQueryToken handle.image resultCb fuel ctxt

end Engine

end MathWebSearch
