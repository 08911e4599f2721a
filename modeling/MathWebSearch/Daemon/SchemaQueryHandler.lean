/-
**The handler of schema queries** (`SchemaQueryHandler`).

The trees of a query are encoded with a dictionary that is made for it, those that can be encoded are handed to the
schema engine, and the variables of a schema are resolved in a second walk over its first formula.

* `encodeTokens` — the trees that are accepted, with their formulae.
* `getSubstitutions` — the walk; it leaves where tree and schema do not fit.
-/

import MathWebSearch.Query.Schemata
import MathWebSearch.Daemon.QueryHandlers

namespace MathWebSearch

open CmmlToken ExpressionEncoder SchemaEngine

/-- `SchemaQueryHandler`. -/
structure SchemaQueryHandler where
  encodingConfig : EncoderConfig

namespace SchemaQueryHandler

/-- `xref`. -/
def xrefAttr : Str := ['x', 'r', 'e', 'f']

/-- `getAttribute`. -/
def getAttribute (token : CmmlToken) (attr : Str) : Str := (token.attributes.lookup attr).getD []

/-- The loop of `handleQuery` over the trees: a tree that cannot be encoded is dropped. -/
def encodeTokens (D : Doubles) (config : EncoderConfig) :
    ExpressionEncoder → List CmmlToken → ExpressionEncoder × List (EncodedFormula × CmmlToken)
  | encoder, [] => (encoder, [])
  | encoder, tok :: rest =>
    let result := encoder.encode (D := D) .harvest config (.root tok) none
    let after := encodeTokens D config result.1.encoder rest
    (after.1, if result.2 = 0 then (result.1.encodedFormula, tok) :: after.2 else after.2)

/-- The choice of the heuristic; what is neither letter is taken for the default. -/
def cutoffHeuristic (cutoffMode : Char) : CutoffHeuristic := if cutoffMode = 'R' then .relative else .absolute

mutual

/-- `getSubstitutions`: what is pushed to `subst`. -/
def getSubstitutions : CmmlToken → CmmlToken → List Str
  | .mk exprTag attributes text exprChildren, schemaRoot =>
    if schemaRoot.getTag = qvarTag then
      let xref := getAttribute (.mk exprTag attributes text exprChildren) xrefAttr
      if xref = [] then [] else [xref]
    else if exprChildren.length ≠ schemaRoot.getChildNodes.length then []
    else if exprTag ≠ schemaRoot.getTag then []
    -- the first child of an `apply` is disregarded
    else getSubstitutionsAll (exprTag = applyTag) exprChildren schemaRoot.getChildNodes

/-- The loop of `getSubstitutions` over the child nodes of both. -/
def getSubstitutionsAll (skip : Bool) : List CmmlToken → List CmmlToken → List Str
  | [], _ => []
  | _ :: _, [] => []
  | exprChild :: exprRest, schemaChild :: schemaRest =>
    (if skip = true then [] else getSubstitutions exprChild schemaChild) ++
      getSubstitutionsAll false exprRest schemaRest

end

/-- The substitutions of a schema, from the first of its formulae. -/
def withSubst (tokens : List CmmlToken) (sch : ExprSchema) : Except Stop ExprSchema :=
  match sch.formulae.head?.bind fun representativeId => tokens[representativeId]? with
  | some exprRoot => .ok { sch with subst := getSubstitutions exprRoot sch.root }
  | none => .error .beyondEnd

/-- The engine that `handleQuery` makes, and the formulae it is called with. -/
def engine (D : Doubles) (self : SchemaQueryHandler) (query : Query) :
    SchemaEngine × List (EncodedFormula × CmmlToken) :=
  let encoded := encodeTokens D self.encodingConfig (.new .empty) query.tokens
  (⟨.new encoded.1.meaningDictionary, cutoffHeuristic query.cutoffMode⟩, encoded.2)

/-- `handleQuery`. -/
def handleQuery (D : Doubles) (self : SchemaQueryHandler) (order : Arrangement) (query : Query) :
    Except Stop SchemaAnswset := do
  let called := self.engine D query
  let result ← called.1.getSchemata order called.2 (castUnsigned query.attrResultMaxSize) query.maxDepth
  let schemata ← result.schemata.mapM (withSubst query.tokens)
  return ⟨schemata, result.total⟩

end SchemaQueryHandler

end MathWebSearch
