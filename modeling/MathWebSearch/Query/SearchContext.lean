/-
**The search** (`mws/query/SearchContext.{hpp,cpp}`).

The constructor numbers the variables and ranges of an encoded query in the order of their first
occurrences. `getResult` walks down the index along the query; a variable or range that it meets for
the first time is solved with an iterator that stays in `bkTable`, and whenever the walk cannot go on
the last solved one is asked for its next solution.

Everything is over an `Accessor`, as in the source. `none` stands for undefined behaviour, a failed
`assert` or an exception of the database; loops take fuel.

`searchStep` is one round of the loop of `getResult`: `forward` evaluates the current token or handles a
solution, and `resume` is the part that backtracks.
-/

import MathWebSearch.Index.IndexIterator
import MathWebSearch.Index.ExpressionEncoder
import MathWebSearch.Types.Query

namespace MathWebSearch

/-- `TokType`. -/
inductive TokType where
  | qvar
  | range
  | const
deriving DecidableEq

/-- `_NodeTriple`; for a variable or range, `arity` is its number. -/
structure NodeTriple where
  type : TokType
  meaningId : Nat
  arity : Nat

/-- The members of a `SearchContext`. -/
structure SearchContext (D : Doubles) where
  mSpecialCount : Nat
  expr : List NodeTriple
  backtrackPoints : List Nat
  options : QueryOptions
  rangeBounds : List (Nat × D.Carrier × D.Carrier)
  decoder : Option ExpressionDecoder

namespace SearchContext

variable {D : Doubles}

/-! ### The constructor -/

/-- The variables of the constructor between two tokens. -/
structure Classified where
  indexedQvars : List (Nat × Nat)
  tokenCount : Nat
  specialCount : Nat
  expr : List NodeTriple
  backtrackPoints : List Nat

/-- A token that opens a new entry of `bkTable`. -/
def Classified.addSpecial (self : Classified) (type : TokType) (meaningId : Nat) : Classified :=
  { self with
    tokenCount := self.tokenCount + 1
    specialCount := self.specialCount + 1
    expr := self.expr ++ [⟨type, meaningId, self.specialCount⟩]
    backtrackPoints := self.backtrackPoints ++ [self.tokenCount + 1] }

/-- A token that does not. -/
def Classified.addPlain (self : Classified) (triple : NodeTriple) : Classified :=
  { self with tokenCount := self.tokenCount + 1, expr := self.expr ++ [triple] }

/-- The body of the loop over the encoded query. -/
def Classified.addToken (self : Classified) (encodedToken : EncodedToken) : Classified :=
  let meaningId := encodedToken.id
  if encodedToken.isVar then
    if encodedToken.isAnonVar then self.addSpecial .qvar meaningId
    else
      match self.indexedQvars.lookup meaningId with
      | none =>
        { self.addSpecial .qvar meaningId with
          indexedQvars := self.indexedQvars ++ [(meaningId, self.specialCount)] }
      | some number => self.addPlain ⟨.qvar, meaningId, number⟩
  else if encodedToken.isRange then self.addSpecial .range meaningId
  else self.addPlain ⟨.const, meaningId, encodedToken.arity⟩

/-- The constructor; `meaningDict` may be null. -/
def new (encodedFormula : EncodedFormula) (options : QueryOptions)
    (rangeBounds : List (Nat × D.Carrier × D.Carrier)) (meaningDict : Option MeaningDictionary) :
    SearchContext D :=
  let classified := encodedFormula.foldl Classified.addToken ⟨[], 0, 0, [], []⟩
  { mSpecialCount := classified.specialCount
    expr := classified.expr
    backtrackPoints := classified.backtrackPoints
    options := options
    rangeBounds := rangeBounds
    decoder := meaningDict.map ExpressionDecoder.new }

end SearchContext

/-! ### Variables and ranges that are being solved -/

section Contexts

variable (D : Doubles)

/-- `NUMBER_PREF`. -/
def numberPref : Str := ['c', 'n', '#']

/-- `isCmmlNumber`. -/
def isCmmlNumber (decoder : Option ExpressionDecoder) (token : EncodedToken) : Option Bool :=
  if token.arity ≠ 0 then some false
  else do
    let decoder ← decoder
    let meaning ← decoder.getMeaning token.id
    return meaning.take numberPref.length = numberPref

/-- `isInRange`; a text `std::stod` does not read is in no range. -/
def isInRange (decoder : Option ExpressionDecoder) (bounds : D.Carrier × D.Carrier)
    (token : EncodedToken) : Option Bool := do
  let decoder ← decoder
  let meaning ← decoder.getMeaning token.id
  return match D.stod (meaning.drop numberPref.length) with
    | some num => D.le bounds.1 num && D.le num bounds.2
    | none => false

/-- `validSubst`. -/
def validSubst (decoder : Option ExpressionDecoder) (bounds : D.Carrier × D.Carrier)
    (token : EncodedToken) : Option Bool := do
  if ← isCmmlNumber decoder token then isInRange D decoder bounds token else return false

/-- What `validSubst` asks of a meaning: a number within the bounds. -/
def numberInRange (bounds : D.Carrier × D.Carrier) (meaning : Str) : Bool :=
  meaning.take numberPref.length = numberPref &&
    match D.stod (meaning.drop numberPref.length) with
    | some num => D.le bounds.1 num && D.le num bounds.2
    | none => false

theorem validSubst_of_meaning {decoder : ExpressionDecoder} {token : EncodedToken} {meaning : Str}
    (bounds : D.Carrier × D.Carrier) (known : decoder.getMeaning token.id = some meaning)
    (flat : token.arity = 0) :
    validSubst D (some decoder) bounds token = some (numberInRange D bounds meaning) := by
  by_cases number : meaning.take numberPref.length = numberPref
  · simp [validSubst, isCmmlNumber, isInRange, numberInRange, flat, known, number]
  · simp [validSubst, isCmmlNumber, numberInRange, flat, known, number]

theorem validSubst_of_arity {decoder : Option ExpressionDecoder} {token : EncodedToken}
    (bounds : D.Carrier × D.Carrier) (inner : token.arity ≠ 0) :
    validSubst D decoder bounds token = some false := by
  simp [validSubst, isCmmlNumber, inner]

/-- `QvarCtxt` and `RangeCtxt`; the fields of the latter are unset until `solve` is called. -/
inductive BacktrackCtxt (Node Iterator : Type) where
  | qvar (isSolved : Bool) (iterator : IndexIterator Node Iterator)
  | range (isSolved : Bool) (bounds : D.Carrier × D.Carrier) (root : Option Node)
      (iterator : Option Iterator)

variable {D} {Index Node Iterator : Type} (A : Accessor Index Node Iterator) (index : Index)
  (decoder : Option ExpressionDecoder) (fuel : Nat)

namespace BacktrackCtxt

/-- One round of the loop that looks for a child a range accepts. -/
def scanStep (bounds : D.Carrier × D.Carrier) (iterator : Iterator) : Option (Iterator ⊕ Iterator) := do
  let token ← A.getToken index iterator
  let valid ← validSubst D decoder bounds token
  if !valid && A.hasNext iterator then return .inl (A.next iterator) else return .inr iterator

/-- The common end of `RangeCtxt::solve` and `RangeCtxt::nextSol`: the first accepted child from the
iterator on. -/
def scan (bounds : D.Carrier × D.Carrier) (root : Node) (iterator : Iterator) :
    Option (BacktrackCtxt D Node Iterator × Option Node) := do
  let iterator ← Fuel.loop (scanStep A index decoder bounds) fuel iterator
  let token ← A.getToken index iterator
  let valid ← validSubst D decoder bounds token
  if valid then
    let child ← A.getChild index root token
    -- `assert(node != nullptr)`
    let node ← child
    return (.range true bounds (some root) (some iterator), some node)
  else return (.range false bounds (some root) (some iterator), none)

/-- `solve`. -/
def solve (self : BacktrackCtxt D Node Iterator) (root : Node) :
    Option (BacktrackCtxt D Node Iterator × Option Node) :=
  match self with
  | .qvar isSolved iterator => do
    let (iterator, node, _) ← (iterator.set root).next A index fuel
    return (.qvar (isSolved || node.isSome) iterator, node)
  | .range _ bounds _ _ => do
    let iterator ← A.getChildrenIterator index root
    scan A index decoder fuel bounds root iterator

/-- `nextSol`. -/
def nextSol (self : BacktrackCtxt D Node Iterator) :
    Option (BacktrackCtxt D Node Iterator × Option Node) :=
  match self with
  | .qvar isSolved iterator => do
    let (iterator, node, _) ← iterator.next A index fuel
    return (.qvar (isSolved && node.isSome) iterator, node)
  | .range _ bounds root iterator => do
    let iterator ← iterator
    let root ← root
    if A.hasNext iterator then scan A index decoder fuel bounds root (A.next iterator)
    else return (.range false bounds (some root) (some iterator), none)

end BacktrackCtxt

end Contexts

/-! ### The search -/

/-- `Answer`: what the callback of the database query stores. -/
structure Answer where
  data : Str
  uri : Str
  xpath : Str
deriving DecidableEq

/-- `MwsAnswset`, the time apart. -/
structure MwsAnswset where
  answers : List Answer
  total : Int
  qvarNames : List Str
  qvarXpaths : List Str
  ids : List Nat

/-- The database a search reads from: the answers stored under a formula id, from an offset on and at
most so many; `none` when it throws. -/
abbrev DbQuery := Nat → Nat → Nat → Option (List Answer)

/-- What a search has collected: the leaves its solution branch was at (not a variable of the source),
the matches counted, the answers and the ids. -/
@[ext]
structure Collected (Node : Type) where
  reached : List Node
  found : Nat
  answers : List Answer
  ids : List Nat

/-- The variables of `getResult` between two rounds. `lastSolved` is one more than in the source, so
that its `-1` is `0`. -/
structure SearchState (D : Doubles) (Node Iterator : Type) where
  bkTable : List (BacktrackCtxt D Node Iterator)
  currentToken : Nat
  currentNode : Node
  lastSolved : Nat
  collected : Collected Node

namespace SearchContext

variable {D : Doubles} {Index Node Iterator : Type}

/-- The loop that sets up `bkTable`. -/
def setupTable (self : SearchContext D) :
    List NodeTriple → List (BacktrackCtxt D Node Iterator) → Option (List (BacktrackCtxt D Node Iterator))
  | [], table => some table
  | triple :: rest, table =>
    if triple.type = .const then setupTable self rest table
    else if triple.arity < table.length then setupTable self rest table
    else if triple.type = .qvar then setupTable self rest (table ++ [.qvar false .unset])
    else do
      -- `assert(it != rangeBounds.end())`
      let limits ← self.rangeBounds.lookup triple.meaningId
      setupTable self rest (table ++ [.range false limits none none])

section Rounds

variable (A : Accessor Index Node Iterator) (index : Index) (query : DbQuery) (self : SearchContext D)
  (offset size maxTotal fuel : Nat)

/-- Walking along the path of a solved variable; `some none` when a child is missing. -/
def replay : List Iterator → Node → Option (Option Node)
  | [], node => some (some node)
  | elem :: rest, node => do
    let token ← A.getToken index elem
    match ← A.getChild index node token with
    | none => return none
    | some node => replay rest node

/-- Whether hits of a leaf are on the requested page, `found` having been counted before it. -/
def onPage (offset size found hitsCount : Nat) : Bool :=
  found < (size + offset) % 2 ^ 32 && offset < found + hitsCount

/-- The call of the database for the hits of a leaf. -/
def fetch (query : DbQuery) (offset size found formulaId : Nat) : Option (List Answer) :=
  if offset < found then query formulaId 0 ((size + offset - found) % 2 ^ 32)
  else query formulaId (offset - found) size

/-- Counting the hits of a leaf, no further than `maxTotal`. -/
def addHits (maxTotal found hitsCount : Nat) : Nat :=
  let found := (found + hitsCount) % 2 ^ 32
  if maxTotal < found then maxTotal else found

/-- Handling a solution. -/
def solution (collected : Collected Node) (node : Node) : Option (Collected Node) := do
  let hitsCount ← (if self.options.includeHits then A.getHitsCount index node else some 1)
  let listed := onPage offset size collected.found hitsCount
  let answers ←
    (if listed && self.options.includeHits then
      (A.getFormulaId index node).bind (fetch query offset size collected.found)
    else some [])
  let ids ←
    (if listed && self.options.includeMwsIds then
      (A.getFormulaId index node).map fun formulaId => collected.ids.insert formulaId
    else some collected.ids)
  return {
    reached := collected.reached ++ [node]
    found := addHits maxTotal collected.found hitsCount
    answers := collected.answers ++ answers
    ids := ids }

/-- Asking the solved variables and ranges for their next solution, the last one first. -/
def backtrackLoop : Nat → List (BacktrackCtxt D Node Iterator) →
    Option (List (BacktrackCtxt D Node Iterator) × Nat × Option Node)
  | 0, table => some (table, 0, none)
  | last + 1, table => do
    let ctxt ← table[last]?
    let (ctxt, node) ← ctxt.nextSol A index self.decoder fuel
    match node with
    | some node => return (table.set last ctxt, last + 1, some node)
    | none => backtrackLoop last (table.set last ctxt)

/-- The part of a round that backtracks: on to the next branch, or out of the loop. -/
def resume (table : List (BacktrackCtxt D Node Iterator)) (lastSolved : Nat) (collected : Collected Node) :
    Option (SearchState D Node Iterator ⊕ Collected Node) := do
  match ← backtrackLoop A index self fuel lastSolved table with
  | (table, last + 1, some node) =>
    let point ← self.backtrackPoints[last]?
    return .inl ⟨table, point, node, last + 1, collected⟩
  | _ => return .inr collected

/-- Going on to the next token, or backtracking when there is no node for it. -/
def advance (state : SearchState D Node Iterator) (table : List (BacktrackCtxt D Node Iterator))
    (lastSolved : Nat) (node : Option Node) : Option (SearchState D Node Iterator ⊕ Collected Node) :=
  match node with
  | some node =>
    some (.inl ⟨table, state.currentToken + 1, node, lastSolved, state.collected⟩)
  | none => resume A index self fuel table state.lastSolved state.collected

/-- Solving the variable or range with the given number. -/
def solveSpecial (state : SearchState D Node Iterator) (number : Nat) :
    Option (SearchState D Node Iterator ⊕ Collected Node) := do
  let ctxt ← state.bkTable[number]?
  let (ctxt, node) ← ctxt.solve A index self.decoder fuel state.currentNode
  advance A index self fuel state (state.bkTable.set number ctxt) (number + 1) node

/-- One round of the loop: out of it when enough is found, else the current token is evaluated, or a
solution handled. -/
def searchStep (state : SearchState D Node Iterator) :
    Option (SearchState D Node Iterator ⊕ Collected Node) :=
  if state.collected.found < maxTotal then
    match self.expr[state.currentToken]? with
    | none => do
      let collected ← solution A index query self offset size maxTotal state.collected state.currentNode
      resume A index self fuel state.bkTable state.lastSolved collected
    | some triple =>
      match triple.type with
      | .qvar => do
        match ← state.bkTable[triple.arity]? with
        | .qvar true iterator =>
          let node ← replay A index iterator.getPath state.currentNode
          advance A index self fuel state state.bkTable state.lastSolved node
        | .range true _ _ _ => none
        | _ => solveSpecial A index self fuel state triple.arity
      | .range => solveSpecial A index self fuel state triple.arity
      | .const => do
        let node ← A.getChild index state.currentNode (encodedToken triple.meaningId triple.arity)
        advance A index self fuel state state.bkTable state.lastSolved node
  else some (.inr state.collected)

end Rounds

/-- `size` after the arguments are checked. -/
def checkedSize (offset size maxTotal : Nat) : Nat :=
  if maxTotal < (offset + size) % 2 ^ 32 then (if maxTotal ≤ offset then 0 else maxTotal - offset)
  else size

/-- Nothing is found yet. -/
def nothing : Collected Node := ⟨[], 0, [], []⟩

/-- The loop of `getResult` with what is in front of it: everything the search has collected. -/
def search (A : Accessor Index Node Iterator) (index : Index) (query : DbQuery) (fuel : Nat)
    (self : SearchContext D) (offset size maxTotal : Nat) : Option (Collected Node) := do
  let table ← self.setupTable self.expr []
  Fuel.loop (searchStep A index query self offset (checkedSize offset size maxTotal) maxTotal fuel) fuel
    (⟨table, 0, A.getRootNode index, 0, nothing⟩ : SearchState D Node Iterator)

/-- `getResult`. -/
def getResult (A : Accessor Index Node Iterator) (index : Index) (query : DbQuery) (fuel : Nat)
    (self : SearchContext D) (offset size maxTotal : Nat) : Option MwsAnswset := do
  let collected ← self.search A index query fuel offset size maxTotal
  return ⟨collected.answers, Bytes.toInt32 collected.found, [], [], collected.ids⟩

/-! ### More fuel -/

section Mono

variable (A : Accessor Index Node Iterator) (index : Index) (query : DbQuery) (self : SearchContext D)

open Fuel

theorem scan_mono (decoder : Option ExpressionDecoder) (fuel : Nat) (bounds : D.Carrier × D.Carrier)
    (root : Node) (iterator : Iterator) :
    Below (BacktrackCtxt.scan A index decoder fuel bounds root iterator)
      (BacktrackCtxt.scan A index decoder (fuel + 1) bounds root iterator) :=
  .bind (loop_mono _ fuel iterator) fun _ => .refl _

theorem solve_mono (decoder : Option ExpressionDecoder) (fuel : Nat)
    (ctxt : BacktrackCtxt D Node Iterator) (root : Node) :
    Below (ctxt.solve A index decoder fuel root) (ctxt.solve A index decoder (fuel + 1) root) := by
  cases ctxt with
  | qvar isSolved iterator => exact .bind (IndexIterator.next_mono A index fuel _) fun _ => .refl _
  | range isSolved bounds oldRoot iterator =>
    exact .bind (.refl _) fun iterator => scan_mono A index decoder fuel bounds root iterator

theorem nextSol_mono (decoder : Option ExpressionDecoder) (fuel : Nat)
    (ctxt : BacktrackCtxt D Node Iterator) :
    Below (ctxt.nextSol A index decoder fuel) (ctxt.nextSol A index decoder (fuel + 1)) := by
  cases ctxt with
  | qvar isSolved iterator => exact .bind (IndexIterator.next_mono A index fuel _) fun _ => .refl _
  | range isSolved bounds root iterator =>
    refine .bind (.refl _) fun iterator => .bind (.refl _) fun root => ?_
    cases A.hasNext iterator with
    | true => exact scan_mono A index decoder fuel bounds root (A.next iterator)
    | false => exact .refl _

theorem backtrackLoop_mono (fuel : Nat) : ∀ (last : Nat) (table : List (BacktrackCtxt D Node Iterator)),
    Below (backtrackLoop A index self fuel last table) (backtrackLoop A index self (fuel + 1) last table) := by
  intro last
  induction last with
  | zero => intro table; exact .refl _
  | succ last ih =>
    intro table
    refine .bind (.refl _) fun ctxt => .bind (nextSol_mono A index self.decoder fuel ctxt) fun result => ?_
    obtain ⟨ctxt', node⟩ := result
    cases node with
    | some node => exact .refl _
    | none => exact ih (table.set last ctxt')

theorem resume_mono (fuel : Nat) (table : List (BacktrackCtxt D Node Iterator)) (lastSolved : Nat)
    (collected : Collected Node) :
    Below (resume A index self fuel table lastSolved collected)
      (resume A index self (fuel + 1) table lastSolved collected) :=
  .bind (backtrackLoop_mono A index self fuel lastSolved table) fun _ => .refl _

theorem advance_mono (fuel : Nat) (state : SearchState D Node Iterator)
    (table : List (BacktrackCtxt D Node Iterator)) (lastSolved : Nat) (node : Option Node) :
    Below (advance A index self fuel state table lastSolved node)
      (advance A index self (fuel + 1) state table lastSolved node) := by
  cases node with
  | some node => exact .refl _
  | none => exact resume_mono A index self fuel table state.lastSolved state.collected

theorem solveSpecial_mono (fuel : Nat) (state : SearchState D Node Iterator) (number : Nat) :
    Below (solveSpecial A index self fuel state number)
      (solveSpecial A index self (fuel + 1) state number) :=
  .bind (.refl _) fun ctxt => .bind (solve_mono A index self.decoder fuel ctxt state.currentNode)
    fun _ => advance_mono A index self fuel state _ _ _

/-- More fuel does not change a computed round. -/
theorem searchStep_mono (offset size maxTotal : Nat) :
    FuelMono (@searchStep D Index Node Iterator A index query self offset size maxTotal) := by
  intro fuel state
  unfold searchStep
  split
  · split
    · exact .bind (.refl _) fun collected => resume_mono A index self fuel _ _ collected
    · split
      · refine .bind (.refl _) fun ctxt => ?_
        split
        · exact .bind (.refl _) fun node => advance_mono A index self fuel state _ _ node
        · exact .refl _
        · exact solveSpecial_mono A index self fuel state _
      · exact solveSpecial_mono A index self fuel state _
      · exact .bind (.refl _) fun node => advance_mono A index self fuel state _ _ node
  · exact .refl _

end Mono

end SearchContext

end MathWebSearch
