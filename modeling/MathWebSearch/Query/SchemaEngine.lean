/-
**The schema engine** (`SchemaEngine`).

A formula is cut at a depth, the formulae that are cut to the same tokens make up a schema, and the tokens are read back
as a tree with variables in place of what was cut. Both directions are stack machines over the arities of the tokens,
which are all that they know of the shape of a formula.

The machines are written over any tokens with an arity, a test for `apply` and what a token is printed as; the engine
runs them on encoded tokens with its decoder.

* `reduceFormula`, `completeExpression` — the tokens that are kept.
* `decodeFormula` — the tree that kept tokens stand for.
* `Stop` — where the code leaves its formula or its stacks, or gives up.
-/

import MathWebSearch.Index.ExpressionEncoder

namespace MathWebSearch

namespace SchemaEngine

/-- How a run stops short. -/
inductive Stop where
  /-- `expr` is read behind its last token. -/
  | beyondEnd
  /-- `top` or `pop` of an empty stack. -/
  | emptyStack
  /-- A count of zero is decremented. -/
  | zeroCount
  /-- A null pointer is followed. -/
  | noParent
  /-- An `assert` fails. -/
  | assertion
  /-- `getMeaning` throws. -/
  | invalidMeaning
  /-- A stream fails. -/
  | failedStream
deriving DecidableEq

/-- `stack<pair<uint32_t, bool>>`, the top first: the child nodes that are still to come, and whether the next one is
the first of an `apply`. -/
abbrev Unexplored := List (Nat × Bool)

/-- The loop at the end of a subexpression: it is taken off the count of its parent, and so is the parent when it was
the last one. -/
def countDown : Unexplored → Except Stop Unexplored
  | [] => .ok []
  | (count, _) :: rest =>
    if count = 0 then .error .zeroCount
    else if count = 1 then countDown rest
    else .ok ((count - 1, false) :: rest)

theorem length_countDown : ∀ {stack left : Unexplored}, countDown stack = .ok left → left.length ≤ stack.length := by
  intro stack
  induction stack with
  | nil =>
    intro left done
    cases done
    exact le_rfl
  | cons top rest ih =>
    intro left done
    rw [countDown] at done
    split_ifs at done
    · exact (ih done).trans (Nat.le_succ _)
    · cases done
      exact le_rfl

section Reduce

variable {α : Type} (ar : α → Nat) (isApply : α → Except Stop Bool)

/-! ### `completeExpression` -/

/-- The loop at the end of a subexpression, on the stack of `completeExpression`. -/
def closeCounts : List Nat → Except Stop (List Nat)
  | [] => .ok []
  | count :: rest =>
    if count = 0 then .error .zeroCount
    else if count = 1 then closeCounts rest
    else .ok ((count - 1) :: rest)

/-- What a token with `ary` child nodes does to the stack. -/
def exploreCounts (ary : Nat) (unexplored : List Nat) : Except Stop (List Nat) :=
  if ary ≠ 0 then .ok (ary :: unexplored) else closeCounts unexplored

/-- The loop of `completeExpression`, from `currTok` on; what is left behind the subexpression is returned. -/
def completeLoop : List α → List Nat → Except Stop (List α)
  | [], _ => .error .beyondEnd
  | token :: rest, unexplored => do
    let unexplored ← exploreCounts (ar token) unexplored
    if unexplored = [] then .ok rest else completeLoop rest unexplored

/-- `completeExpression`. -/
def completeExpression (expr : List α) : Except Stop (List α) := completeLoop ar expr []

/-- `exprToComplete` subexpressions, one after the other. -/
def completeExpressions : Nat → List α → Except Stop (List α)
  | 0, expr => .ok expr
  | exprToComplete + 1, expr => do
    let expr ← completeExpression ar expr
    completeExpressions exprToComplete expr

theorem length_completeLoop {expr : List α} : ∀ {unexplored : List Nat} {left : List α},
    completeLoop ar expr unexplored = .ok left → left.length ≤ expr.length := by
  induction expr with
  | nil =>
    intro unexplored left done
    cases done
  | cons token rest ih =>
    intro unexplored left done
    rw [completeLoop] at done
    cases next : exploreCounts (ar token) unexplored with
    | error stop => rw [next] at done; cases done
    | ok unexplored' =>
      simp only [next, bind, Except.bind] at done
      split_ifs at done
      · cases done
        exact Nat.le_succ _
      · exact (ih done).trans (Nat.le_succ _)

theorem length_completeExpressions (count : Nat) : ∀ {expr left : List α},
    completeExpressions ar count expr = .ok left → left.length ≤ expr.length := by
  induction count with
  | zero =>
    intro expr left done
    cases done
    exact le_rfl
  | succ count ih =>
    intro expr left done
    rw [completeExpressions] at done
    cases next : completeExpression ar expr with
    | error stop => rw [next] at done; cases done
    | ok expr' =>
      rw [next] at done
      exact (ih done).trans (length_completeLoop ar next)

/-! ### `reduceFormula` -/

/-- The loop of `reduceFormula`, over the tokens from `currToken` on. -/
def reduceLoop (maxDepth : Nat) (expr : List α) (unexplored : Unexplored) (reducedExpr : List α) :
    Except Stop (List α) :=
  match expr with
  | [] => .ok reducedExpr
  | token :: rest =>
    match unexplored with
    | [] => .error .emptyStack
    | (exprToComplete, isFirstChild) :: stack =>
      if maxDepth ≤ stack.length + 1 ∧ isFirstChild = false then
        match _skipped : completeExpressions ar exprToComplete (token :: rest), _left : countDown stack with
        | .error stop, _ => .error stop
        | .ok _, .error stop => .error stop
        | .ok expr, .ok unexplored => reduceLoop maxDepth expr unexplored reducedExpr
      else if ar token ≠ 0 then do
        let apply ← isApply token
        reduceLoop maxDepth rest ((ar token, apply) :: (exprToComplete, isFirstChild) :: stack) (reducedExpr ++ [token])
      else do
        let unexplored ← countDown ((exprToComplete, isFirstChild) :: stack)
        reduceLoop maxDepth rest unexplored (reducedExpr ++ [token])
termination_by (expr.length, unexplored.length)
decreasing_by
  · have shorter := length_completeExpressions ar exprToComplete _skipped
    have lower := length_countDown _left
    rw [Prod.lex_def]
    simp only [List.length_cons] at shorter ⊢
    omega
  · exact Prod.Lex.left _ _ (Nat.lt_succ_self _)
  · exact Prod.Lex.left _ _ (Nat.lt_succ_self _)

/-- `reduceFormula`. -/
def reduceFormula (expr : List α) (maxDepth : Nat) : Except Stop (List α) :=
  match expr with
  | [] => .ok []
  | root :: rest =>
    if maxDepth = 0 then .ok []
    else do
      let apply ← isApply root
      reduceLoop ar isApply maxDepth rest [(ar root, apply)] [root]

end Reduce

/-! ### `decodeFormula` -/

/-- A tree that `decodeFormula` builds: nodes that print tokens, and numbered variables. -/
inductive SchemaTree (β : Type) where
  | token (content : β) (children : List (SchemaTree β))
  | qvar (number : Nat)

/-- `currCmml`: the content and the child nodes of a node, and those of the nodes above it. -/
structure Cursor (β : Type) where
  content : β
  children : List (SchemaTree β)
  above : List (β × List (SchemaTree β))

namespace Cursor

variable {β : Type}

/-- `newChildNode`, with the content that is then set. -/
def newChildNode (self : Cursor β) (content : β) : Cursor β :=
  ⟨content, [], (self.content, self.children) :: self.above⟩

/-- `getParentNode`. -/
def getParentNode (self : Cursor β) : Except Stop (Cursor β) :=
  match self.above with
  | [] => .error .noParent
  | (content, children) :: above => .ok ⟨content, children ++ [.token self.content self.children], above⟩

/-- New child nodes for `anonExprs` variables; the number of a variable is a `uint32_t`. -/
def addQvars (self : Cursor β) (anonExprs qvarCount : Nat) : Cursor β :=
  { self with children := self.children ++ (List.range anonExprs).map fun i => .qvar ((qvarCount + i) % 2 ^ 32) }

end Cursor

/-- The loop at the end of a subexpression, in which the current node goes up with the counts. -/
def climb {β : Type} : Unexplored → Cursor β → Except Stop (Unexplored × Cursor β)
  | [], currCmml => .ok ([], currCmml)
  | (count, _) :: rest, currCmml =>
    if count = 0 then .error .zeroCount
    else do
      let currCmml ← currCmml.getParentNode
      if count = 1 then climb rest currCmml else .ok ((count - 1, false) :: rest, currCmml)

theorem length_climb {β : Type} : ∀ {stack : Unexplored} {currCmml : Cursor β} {left : Unexplored × Cursor β},
    climb stack currCmml = .ok left → left.1.length ≤ stack.length := by
  intro stack
  induction stack with
  | nil =>
    intro currCmml left done
    cases done
    exact le_rfl
  | cons top rest ih =>
    intro currCmml left done
    rw [climb] at done
    cases up : currCmml.getParentNode with
    | error stop => simp only [up, bind, Except.bind] at done; split_ifs at done
    | ok parent =>
      simp only [up, bind, Except.bind] at done
      split_ifs at done
      · exact (ih done).trans (Nat.le_succ _)
      · cases done
        exact le_rfl

/-- The loop behind the last token: what is still missing are variables. -/
def completeTree {β : Type} (unexplored : Unexplored) (currCmml : Cursor β) (qvarCount : Nat) :
    Except Stop (Cursor β) :=
  match unexplored with
  | [] => .ok currCmml
  | (anonExprs, isFirstChild) :: stack =>
    if isFirstChild then .error .assertion
    else
      match _left : climb stack (currCmml.addQvars anonExprs qvarCount) with
      | .error stop => .error stop
      | .ok (unexplored, currCmml) => completeTree unexplored currCmml (qvarCount + anonExprs)
termination_by unexplored.length
decreasing_by
  have lower := length_climb _left
  simp only [List.length_cons] at lower ⊢
  omega

section Decode

variable {α β : Type} (ar : α → Nat) (isApply : α → Except Stop Bool) (print : α → Except Stop β)

/-- The `do` loop of `decodeFormula`, over the tokens from `currTok` on. -/
def decodeLoop (maxDepth : Nat) (expr : List α) (unexplored : Unexplored) (currCmml : Cursor β) (qvarCount : Nat) :
    Except Stop (Cursor β) :=
  match unexplored with
  | [] => .error .emptyStack
  | (anonExprs, isFirstChild) :: stack =>
    if maxDepth ≤ stack.length + 1 ∧ isFirstChild = false then
      match _left : climb stack (currCmml.addQvars anonExprs qvarCount) with
      | .error stop => .error stop
      | .ok (unexplored, currCmml) =>
        if expr = [] then completeTree unexplored currCmml (qvarCount + anonExprs)
        else decodeLoop maxDepth expr unexplored currCmml (qvarCount + anonExprs)
    else
      match expr with
      | [] => .error .beyondEnd
      | token :: rest => do
        let content ← print token
        let currCmml := currCmml.newChildNode content
        if ar token ≠ 0 then do
          let apply ← isApply token
          let unexplored := (ar token, apply) :: (anonExprs, isFirstChild) :: stack
          if rest = [] then completeTree unexplored currCmml qvarCount
          else decodeLoop maxDepth rest unexplored currCmml qvarCount
        else do
          let (unexplored, currCmml) ← climb ((anonExprs, isFirstChild) :: stack) currCmml
          if rest = [] then completeTree unexplored currCmml qvarCount
          else decodeLoop maxDepth rest unexplored currCmml qvarCount
termination_by (expr.length, unexplored.length)
decreasing_by
  · have lower := length_climb _left
    exact Prod.Lex.right _ (Nat.lt_succ_of_le lower)
  · exact Prod.Lex.left _ _ (Nat.lt_succ_self _)
  · exact Prod.Lex.left _ _ (Nat.lt_succ_self _)

/-- `decodeFormula`. -/
def decodeFormula (expr : List α) (maxDepth : Nat) : Except Stop (SchemaTree β) :=
  match expr with
  | [] => .ok (.qvar 0)
  | root :: rest => do
    let content ← print root
    let apply ← isApply root
    if ar root = 0 then .ok (.token content [])
    else do
      let currCmml ← decodeLoop ar isApply print maxDepth rest [(ar root, apply)] ⟨content, [], []⟩ 1
      -- `assert(currCmml->isRoot())`
      if currCmml.above = [] then .ok (.token currCmml.content currCmml.children) else .error .assertion

end Decode

end SchemaEngine

end MathWebSearch
