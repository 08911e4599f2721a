/-
**The search over simulating accessors** (`SearchContext::getResult` as a template).

When one accessor simulates another, every round of the search over the first is followed by a round over
the second, with corresponding tables and nodes and the same counts, answers and ids.

* `search_follows` — the whole search: the leaves reached correspond, everything else is equal.
* `getResult_eq` — a result of `getResult` over the first accessor is its result over the second.
-/

import MathWebSearch.Index.AccessorSimulation
import MathWebSearch.Query.SearchContext

namespace MathWebSearch

open Simulation

variable {D : Doubles} {Index Node Iterator Index' Node' Iterator' : Type}

/-- Corresponding entries of `bkTable`. -/
inductive BacktrackCtxt.Same (SameNode : Node → Node' → Prop) (SameIterator : Iterator → Iterator' → Prop) :
    BacktrackCtxt D Node Iterator → BacktrackCtxt D Node' Iterator' → Prop
  | qvar (isSolved : Bool) {iterator : IndexIterator Node Iterator}
      {iterator' : IndexIterator Node' Iterator'} : iterator.Same SameNode SameIterator iterator' →
      Same SameNode SameIterator (.qvar isSolved iterator) (.qvar isSolved iterator')
  | range (isSolved : Bool) (bounds : D.Carrier × D.Carrier) {root : Option Node} {root' : Option Node'}
      {iterator : Option Iterator} {iterator' : Option Iterator'} : Option.Rel SameNode root root' →
      Option.Rel SameIterator iterator iterator' →
      Same SameNode SameIterator (.range isSolved bounds root iterator) (.range isSolved bounds root' iterator')

/-- What two searches have collected: corresponding leaves, and the rest alike. -/
structure Collected.Same (SameNode : Node → Node' → Prop) (first : Collected Node)
    (second : Collected Node') : Prop where
  reached : List.Forall₂ SameNode first.reached second.reached
  found : first.found = second.found
  answers : first.answers = second.answers
  ids : first.ids = second.ids

/-- Corresponding states between two rounds. -/
structure SearchState.Same (SameNode : Node → Node' → Prop) (SameIterator : Iterator → Iterator' → Prop)
    (first : SearchState D Node Iterator) (second : SearchState D Node' Iterator') : Prop where
  bkTable : List.Forall₂ (BacktrackCtxt.Same SameNode SameIterator) first.bkTable second.bkTable
  currentToken : first.currentToken = second.currentToken
  currentNode : SameNode first.currentNode second.currentNode
  lastSolved : first.lastSolved = second.lastSolved
  collected : first.collected.Same SameNode second.collected

/-- Tables are set up alike, whatever nodes they are for. -/
theorem SearchContext.setupTable_follows (context : SearchContext D) {SameNode : Node → Node' → Prop}
    {SameIterator : Iterator → Iterator' → Prop} (triples : List NodeTriple) {table : List (BacktrackCtxt D Node Iterator)}
    {table' : List (BacktrackCtxt D Node' Iterator')}
    (same : List.Forall₂ (BacktrackCtxt.Same SameNode SameIterator) table table') :
    Follows (List.Forall₂ (BacktrackCtxt.Same SameNode SameIterator)) (context.setupTable triples table)
      (context.setupTable triples table') := by
  induction triples generalizing table table' with
  | nil => exact .value same
  | cons triple rest ih =>
    rw [setupTable, setupTable, ← same.length_eq]
    split_ifs
    · exact ih same
    · exact ih same
    · exact ih (List.rel_append same (.cons (.qvar false IndexIterator.same_unset) .nil))
    · exact .bind_same fun limits => ih (List.rel_append same (.cons (.range false limits .none .none) .nil))

section Simulated

variable {A : Accessor Index Node Iterator} {B : Accessor Index' Node' Iterator'} {index : Index}
  {index' : Index'} {SameNode : Node → Node' → Prop} {SameIterator : Iterator → Iterator' → Prop}
  (simulates : Simulates A B index index' SameNode SameIterator)

include simulates

/-! ### The entries -/

namespace BacktrackCtxt

/-- An entry with the node it is solved with. -/
def SameSolution (SameNode : Node → Node' → Prop) (SameIterator : Iterator → Iterator' → Prop)
    (result : BacktrackCtxt D Node Iterator × Option Node)
    (result' : BacktrackCtxt D Node' Iterator' × Option Node') : Prop :=
  Same SameNode SameIterator result.1 result'.1 ∧ Option.Rel SameNode result.2 result'.2

variable (decoder : Option ExpressionDecoder) (fuel : Nat)

theorem scan_follows (bounds : D.Carrier × D.Carrier) {root : Node} {root' : Node'}
    (roots : SameNode root root') {iterator : Iterator} {iterator' : Iterator'}
    (iterators : SameIterator iterator iterator') :
    Follows (SameSolution SameNode SameIterator) (scan A index decoder fuel bounds root iterator)
      (scan B index' decoder fuel bounds root' iterator') := by
  have step : ∀ iterator iterator', SameIterator iterator iterator' →
      Follows (Sum.LiftRel SameIterator SameIterator) (scanStep A index decoder bounds iterator)
        (scanStep B index' decoder bounds iterator') := by
    intro iterator iterator' related
    refine .bind (simulates.token related) fun token token' equal => ?_
    subst equal
    refine .bind_same fun valid => ?_
    rw [← simulates.hasNext related]
    by_cases onward : (!valid && A.hasNext iterator) = true
    · rw [if_pos onward, if_pos onward]
      exact .value (.inl (simulates.next related (Bool.and_eq_true_iff.mp onward).2))
    · rw [if_neg onward, if_neg onward]
      exact .value (.inr related)
  refine .bind (.loop step fuel iterators) fun iterator iterator' related => ?_
  refine .bind (simulates.token related) fun token token' equal => ?_
  subst equal
  refine .bind_same fun valid => ?_
  cases valid with
  | false => exact .value ⟨.range false bounds (.some roots) (.some related), .none⟩
  | true =>
    refine .bind (simulates.child roots token) fun child child' children => ?_
    refine .bind (.of_rel children) fun node node' nodes => ?_
    exact .value ⟨.range true bounds (.some roots) (.some related), .some nodes⟩

theorem solve_follows {ctxt : BacktrackCtxt D Node Iterator} {ctxt' : BacktrackCtxt D Node' Iterator'}
    (same : Same SameNode SameIterator ctxt ctxt') {root : Node} {root' : Node'}
    (roots : SameNode root root') :
    Follows (SameSolution SameNode SameIterator) (ctxt.solve A index decoder fuel root)
      (ctxt'.solve B index' decoder fuel root') := by
  cases same with
  | qvar isSolved same =>
    refine .bind (IndexIterator.next_follows simulates fuel (same.set roots)) ?_
    rintro ⟨iterator, node, events⟩ ⟨iterator', node', events'⟩ ⟨same', nodes, _⟩
    have solved : node.isSome = node'.isSome := isSome_eq_of_rel nodes
    simp only [solved]
    exact .value ⟨.qvar _ same', nodes⟩
  | range isSolved bounds _ _ =>
    exact .bind (simulates.children roots) fun _ _ iterators =>
      scan_follows simulates decoder fuel bounds roots iterators

theorem nextSol_follows {ctxt : BacktrackCtxt D Node Iterator} {ctxt' : BacktrackCtxt D Node' Iterator'}
    (same : Same SameNode SameIterator ctxt ctxt') :
    Follows (SameSolution SameNode SameIterator) (ctxt.nextSol A index decoder fuel)
      (ctxt'.nextSol B index' decoder fuel) := by
  cases same with
  | qvar isSolved same =>
    refine .bind (IndexIterator.next_follows simulates fuel same) ?_
    rintro ⟨iterator, node, events⟩ ⟨iterator', node', events'⟩ ⟨same', nodes, _⟩
    have solved : node.isSome = node'.isSome := isSome_eq_of_rel nodes
    simp only [solved]
    exact .value ⟨.qvar _ same', nodes⟩
  | range isSolved bounds roots iterators =>
    refine .bind (.of_rel iterators) fun iterator iterator' related => ?_
    refine .bind (.of_rel roots) fun root root' rootRelated => ?_
    rw [← simulates.hasNext related]
    by_cases more : A.hasNext iterator = true
    · rw [if_pos more, if_pos more]
      exact scan_follows simulates decoder fuel bounds rootRelated (simulates.next related more)
    · rw [if_neg more, if_neg more]
      exact .value ⟨.range false bounds (.some rootRelated) (.some related), .none⟩

end BacktrackCtxt

/-! ### The rounds -/

namespace SearchContext

variable (context : SearchContext D) (query : DbQuery) (offset size maxTotal fuel : Nat)

/-- The results of a round. -/
abbrev SameRound (D : Doubles) (SameNode : Node → Node' → Prop) (SameIterator : Iterator → Iterator' → Prop) :=
  Sum.LiftRel (@SearchState.Same D Node Iterator Node' Iterator' SameNode SameIterator)
    (Collected.Same SameNode)

theorem replay_follows {path : List Iterator} {path' : List Iterator'}
    (same : List.Forall₂ SameIterator path path') {node : Node} {node' : Node'} (nodes : SameNode node node') :
    Follows (Option.Rel SameNode) (replay A index path node) (replay B index' path' node') := by
  induction same generalizing node node' with
  | nil => exact .value (.some nodes)
  | cons related _ ih =>
    refine .bind (simulates.token related) fun token token' equal => ?_
    subst equal
    refine .bind (simulates.child nodes token) fun child child' children => ?_
    cases children with
    | none => exact .value .none
    | some nodes => exact ih nodes

theorem solution_follows {collected : Collected Node} {collected' : Collected Node'}
    (same : collected.Same SameNode collected') {node : Node} {node' : Node'} (nodes : SameNode node node') :
    Follows (Collected.Same SameNode)
      (solution A index query context offset size maxTotal collected node)
      (solution B index' query context offset size maxTotal collected' node') := by
  have counted : Follows Eq (if context.options.includeHits then A.getHitsCount index node else some 1)
      (if context.options.includeHits then B.getHitsCount index' node' else some 1) := by
    split
    · exact simulates.hitsCount nodes
    · exact .value rfl
  refine .bind counted fun hitsCount hitsCount' equal => ?_
  subst equal
  rw [← same.found, ← same.ids, ← same.answers]
  have fetched : Follows Eq
      (if onPage offset size collected.found hitsCount && context.options.includeHits then
        (A.getFormulaId index node).bind (fetch query offset size collected.found) else some [])
      (if onPage offset size collected.found hitsCount && context.options.includeHits then
        (B.getFormulaId index' node').bind (fetch query offset size collected.found) else some []) := by
    split
    · exact .bind (simulates.formulaId nodes) fun id id' equal => equal ▸ fun _ computed =>
        ⟨_, computed, rfl⟩
    · exact .value rfl
  refine .bind fetched fun answers answers' equal => ?_
  subst equal
  have listed : Follows Eq
      (if onPage offset size collected.found hitsCount && context.options.includeMwsIds then
        (A.getFormulaId index node).map fun formulaId => collected.ids.insert formulaId
        else some collected.ids)
      (if onPage offset size collected.found hitsCount && context.options.includeMwsIds then
        (B.getFormulaId index' node').map fun formulaId => collected.ids.insert formulaId
        else some collected.ids) := by
    split
    · exact .map (simulates.formulaId nodes) fun id id' equal => by rw [equal]
    · exact .value rfl
  refine .bind listed fun ids ids' equal => .value ⟨?_, rfl, rfl, equal⟩
  exact List.rel_append same.reached (.cons nodes .nil)

theorem backtrackLoop_follows (last : Nat) {table : List (BacktrackCtxt D Node Iterator)}
    {table' : List (BacktrackCtxt D Node' Iterator')}
    (same : List.Forall₂ (BacktrackCtxt.Same SameNode SameIterator) table table') :
    Follows (fun result result' =>
        List.Forall₂ (BacktrackCtxt.Same SameNode SameIterator) result.1 result'.1 ∧
          result.2.1 = result'.2.1 ∧ Option.Rel SameNode result.2.2 result'.2.2)
      (backtrackLoop A index context fuel last table) (backtrackLoop B index' context fuel last table') := by
  induction last generalizing table table' with
  | zero => exact .value ⟨same, rfl, .none⟩
  | succ last ih =>
    refine .bind (.getElem? same last) fun ctxt ctxt' entries => ?_
    refine .bind (BacktrackCtxt.nextSol_follows simulates context.decoder fuel entries) ?_
    rintro ⟨ctxt, node⟩ ⟨ctxt', node'⟩ ⟨entries', nodes⟩
    cases nodes with
    | some nodes => exact .value ⟨forall₂_set same entries' last, rfl, .some nodes⟩
    | none => exact ih (forall₂_set same entries' last)

theorem resume_follows {table : List (BacktrackCtxt D Node Iterator)}
    {table' : List (BacktrackCtxt D Node' Iterator')}
    (same : List.Forall₂ (BacktrackCtxt.Same SameNode SameIterator) table table') (lastSolved : Nat)
    {collected : Collected Node} {collected' : Collected Node'} (sameCollected : collected.Same SameNode collected') :
    Follows (SameRound D SameNode SameIterator) (resume A index context fuel table lastSolved collected)
      (resume B index' context fuel table' lastSolved collected') := by
  refine .bind (backtrackLoop_follows simulates context fuel lastSolved same) ?_
  rintro ⟨left, last, node⟩ ⟨left', last', node'⟩ ⟨lefts, rfl, nodes⟩
  cases nodes with
  | none => cases last <;> exact .value (.inr sameCollected)
  | some nodes =>
    cases last with
    | zero => exact .value (.inr sameCollected)
    | succ last => exact .bind_same fun point => .value (.inl ⟨lefts, rfl, nodes, rfl, sameCollected⟩)

theorem advance_follows {state : SearchState D Node Iterator} {state' : SearchState D Node' Iterator'}
    (same : state.Same SameNode SameIterator state') {table : List (BacktrackCtxt D Node Iterator)}
    {table' : List (BacktrackCtxt D Node' Iterator')}
    (tables : List.Forall₂ (BacktrackCtxt.Same SameNode SameIterator) table table') (lastSolved : Nat)
    {node : Option Node} {node' : Option Node'} (nodes : Option.Rel SameNode node node') :
    Follows (SameRound D SameNode SameIterator) (advance A index context fuel state table lastSolved node)
      (advance B index' context fuel state' table' lastSolved node') := by
  cases nodes with
  | some nodes => exact .value (.inl ⟨tables, by rw [same.currentToken], nodes, rfl, same.collected⟩)
  | none =>
    rw [advance, advance, ← same.lastSolved]
    exact resume_follows simulates context fuel tables state.lastSolved same.collected

theorem solveSpecial_follows {state : SearchState D Node Iterator} {state' : SearchState D Node' Iterator'}
    (same : state.Same SameNode SameIterator state') (number : Nat) :
    Follows (SameRound D SameNode SameIterator) (solveSpecial A index context fuel state number)
      (solveSpecial B index' context fuel state' number) := by
  refine .bind (.getElem? same.bkTable number) fun ctxt ctxt' entries => ?_
  refine .bind (BacktrackCtxt.solve_follows simulates context.decoder fuel entries same.currentNode) ?_
  rintro ⟨ctxt, node⟩ ⟨ctxt', node'⟩ ⟨entries', nodes⟩
  exact advance_follows simulates context fuel same (forall₂_set same.bkTable entries' number) (number + 1) nodes

/-- **One round**, by the kind of the current token. -/
theorem searchStep_follows {state : SearchState D Node Iterator} {state' : SearchState D Node' Iterator'}
    (same : state.Same SameNode SameIterator state') :
    Follows (SameRound D SameNode SameIterator)
      (searchStep A index query context offset size maxTotal fuel state)
      (searchStep B index' query context offset size maxTotal fuel state') := by
  rw [searchStep, searchStep, ← same.collected.found, ← same.currentToken]
  by_cases unfinished : state.collected.found < maxTotal
  swap
  · rw [if_neg unfinished, if_neg unfinished]
    exact .value (.inr same.collected)
  rw [if_pos unfinished, if_pos unfinished]
  cases current : context.expr[state.currentToken]? with
  | none =>
    refine .bind (solution_follows simulates context query offset size maxTotal same.collected
      same.currentNode) fun collected collected' sameCollected => ?_
    rw [← same.lastSolved]
    exact resume_follows simulates context fuel same.bkTable state.lastSolved sameCollected
  | some triple =>
    obtain ⟨type, meaningId, arity⟩ := triple
    cases type with
    | const =>
      refine .bind (simulates.child same.currentNode _) fun node node' nodes => ?_
      rw [← same.lastSolved]
      exact advance_follows simulates context fuel same same.bkTable state.lastSolved nodes
    | range => exact solveSpecial_follows simulates context fuel same arity
    | qvar =>
      refine .bind (.getElem? same.bkTable arity) fun ctxt ctxt' entries => ?_
      cases entries with
      | qvar isSolved iterators =>
        cases isSolved with
        | false => exact solveSpecial_follows simulates context fuel same arity
        | true =>
          have path := List.rel_reverse iterators.backtrackIterators
          refine .bind (replay_follows simulates path same.currentNode) fun node node' nodes => ?_
          rw [← same.lastSolved]
          exact advance_follows simulates context fuel same same.bkTable state.lastSolved nodes
      | range isSolved bounds _ _ =>
        cases isSolved with
        | false => exact solveSpecial_follows simulates context fuel same arity
        | true => exact .fault

/-- **The search over a simulating accessor reaches the corresponding leaves.** -/
theorem search_follows :
    Follows (Collected.Same SameNode) (context.search A index query fuel offset size maxTotal)
      (context.search B index' query fuel offset size maxTotal) := by
  have start : List.Forall₂ (@BacktrackCtxt.Same D _ _ _ _ SameNode SameIterator) [] [] := .nil
  refine .bind (setupTable_follows context context.expr start) fun table table' tables => ?_
  refine .loop (fun state state' same => searchStep_follows simulates context query offset
    (checkedSize offset size maxTotal) maxTotal fuel same) fuel ?_
  exact ⟨tables, rfl, simulates.root, rfl, .nil, rfl, rfl, rfl⟩

/-- `getResult` over a simulating accessor gives the same answers. -/
theorem getResult_follows :
    Follows Eq (context.getResult A index query fuel offset size maxTotal)
      (context.getResult B index' query fuel offset size maxTotal) := by
  refine .bind (search_follows simulates context query offset size maxTotal fuel)
    fun collected collected' same => .value ?_
  rw [same.answers, same.found, same.ids]

end SearchContext

end Simulated

/-- A search that asks no leaf for children comes to the same with the accessor of the source. -/
theorem SearchContext.search_of_strict {index : TmpIndex} {context : SearchContext D} {query : DbQuery}
    {fuel offset size maxTotal : Nat} {collected : Collected TmpIndexNode}
    (searched : context.search strictAccessor index query fuel offset size maxTotal = some collected) :
    context.search tmpIndexAccessor index query fuel offset size maxTotal = some collected := by
  obtain ⟨collected', computed, same⟩ := search_follows (simulates_strictAccessor index) context query
    offset size maxTotal fuel collected searched
  have nodes : collected.reached = collected'.reached := List.forall₂_eq_eq_eq ▸ same.reached
  rw [computed, Collected.ext nodes same.found same.answers same.ids]

end MathWebSearch
