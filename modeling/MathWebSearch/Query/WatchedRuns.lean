/-
**Runs of the search that are watched** (`SearchContext::getResult` and the life of its `bkTable`).

The constructor of `RangeCtxt` leaves `iterator` unset, `solve` sets it, `nextSol` uses it and the destructor frees it.

* `watchedRun` — the table that is destroyed at the end of a run, and the contexts `nextSol` was called on.
* `searchStep_leftBehind` — watching a round changes nothing of it.
* `watchedRun_follows` — the watched runs over two accessors of which one simulates the other.
-/

import MathWebSearch.Query.SearchSimulation

namespace MathWebSearch

open Simulation

/-- The fields of the context are set: a variable has no field that its constructor leaves unset. -/
def BacktrackCtxt.assigned {D : Doubles} {Node Iterator : Type} : BacktrackCtxt D Node Iterator → Bool
  | .qvar _ _ => true
  | .range _ _ _ iterator => iterator.isSome

/-- `isSolved`. -/
def BacktrackCtxt.isSolved {D : Doubles} {Node Iterator : Type} : BacktrackCtxt D Node Iterator → Bool
  | .qvar isSolved _ => isSolved
  | .range isSolved _ _ _ => isSolved

namespace SearchContext

variable {D : Doubles} {Index Node Iterator : Type}

/-! ### A run that is watched -/

section Watched

variable (A : Accessor Index Node Iterator) (index : Index) (query : DbQuery) (self : SearchContext D)
  (offset size maxTotal fuel : Nat)

/-- The contexts that `backtrackLoop` calls `nextSol` on, in their order. -/
def askedLoop : Nat → List (BacktrackCtxt D Node Iterator) → List (BacktrackCtxt D Node Iterator)
  | 0, _ => []
  | last + 1, table =>
    match table[last]? with
    | none => []
    | some ctxt =>
      match ctxt.nextSol A index self.decoder fuel with
      | some (ctxt', none) => ctxt :: askedLoop last (table.set last ctxt')
      | _ => [ctxt]

/-- The table and the node behind a call of `solve`. -/
def solveAt (state : SearchState D Node Iterator) (number : Nat) :
    Option (List (BacktrackCtxt D Node Iterator) × Option Node) := do
  let ctxt ← state.bkTable[number]?
  let (ctxt, node) ← ctxt.solve A index self.decoder fuel state.currentNode
  return (state.bkTable.set number ctxt, node)

/-- The table behind the evaluation of the current token, and the node the round goes on with; there is none where it
backtracks. -/
def evaluate (state : SearchState D Node Iterator) : Option (List (BacktrackCtxt D Node Iterator) × Option Node) :=
  match self.expr[state.currentToken]? with
  | none => some (state.bkTable, none)
  | some triple =>
    match triple.type with
    | .qvar => do
      match ← state.bkTable[triple.arity]? with
      | .qvar true iterator =>
        let node ← replay A index iterator.getPath state.currentNode
        return (state.bkTable, node)
      | _ => solveAt A index self fuel state triple.arity
    | .range => solveAt A index self fuel state triple.arity
    | .const => do
      let node ← A.getChild index state.currentNode (encodedToken triple.meaningId triple.arity)
      return (state.bkTable, node)

/-- What a round leaves of the table, and the contexts it calls `nextSol` on. -/
def leftBehind (state : SearchState D Node Iterator) :
    Option (List (BacktrackCtxt D Node Iterator) × List (BacktrackCtxt D Node Iterator)) :=
  if state.collected.found < maxTotal then do
    let (table, node) ← evaluate A index self fuel state
    match node with
    | some _ => return (table, [])
    | none =>
      let (table', _, _) ← backtrackLoop A index self fuel state.lastSolved table
      return (table', askedLoop A index self fuel state.lastSolved table)
  else some (state.bkTable, [])

/-- A round, with the contexts asked so far; out of the loop with the table that is destroyed. -/
def watchedStep (run : SearchState D Node Iterator × List (BacktrackCtxt D Node Iterator)) :
    Option (SearchState D Node Iterator × List (BacktrackCtxt D Node Iterator) ⊕
      List (BacktrackCtxt D Node Iterator) × List (BacktrackCtxt D Node Iterator)) := do
  let next ← searchStep A index query self offset size maxTotal fuel run.1
  let (table, asked) ← leftBehind A index self maxTotal fuel run.1
  match next with
  | .inl state => return .inl (state, run.2 ++ asked)
  | .inr _ => return .inr (table, run.2 ++ asked)

/-- **The run of `getResult`**: the table at its end, and the contexts that `nextSol` was called on. -/
def watchedRun : Option (List (BacktrackCtxt D Node Iterator) × List (BacktrackCtxt D Node Iterator)) := do
  let table ← self.setupTable self.expr []
  Fuel.loop (watchedStep A index query self offset (checkedSize offset size maxTotal) maxTotal fuel) fuel
    (⟨table, 0, A.getRootNode index, 0, nothing⟩, [])

variable {A index query self offset size maxTotal fuel}

/-- A round that backtracks leaves the table of `backtrackLoop`. -/
theorem resume_leftBehind {state : SearchState D Node Iterator} {table : List (BacktrackCtxt D Node Iterator)}
    {collected : Collected Node} {next : SearchState D Node Iterator ⊕ Collected Node}
    (unfinished : state.collected.found < maxTotal) (evaluated : evaluate A index self fuel state = some (table, none))
    (resumed : resume A index self fuel table state.lastSolved collected = some next) :
    ∃ left, leftBehind A index self maxTotal fuel state = some left ∧
      ∀ state', next = .inl state' → left.1 = state'.bkTable := by
  obtain ⟨⟨table', last, node⟩, backtracked, rest⟩ := Option.bind_eq_some_iff.mp resumed
  refine ⟨(table', askedLoop A index self fuel state.lastSolved table), ?_, ?_⟩
  · simp only [leftBehind, if_pos unfinished, evaluated, backtracked, Option.bind_eq_bind, Option.bind_some, Option.pure_def]
  · rintro state' rfl
    cases last with
    | zero => cases rest
    | succ last =>
      cases node with
      | none => cases rest
      | some node =>
        obtain ⟨point, -, same⟩ := Option.bind_eq_some_iff.mp rest
        rw [← Sum.inl.inj (Option.some.inj same)]

theorem advance_leftBehind {state : SearchState D Node Iterator} {table : List (BacktrackCtxt D Node Iterator)}
    {lastSolved : Nat} {node : Option Node} {next : SearchState D Node Iterator ⊕ Collected Node}
    (unfinished : state.collected.found < maxTotal) (evaluated : evaluate A index self fuel state = some (table, node))
    (advanced : advance A index self fuel state table lastSolved node = some next) :
    ∃ left, leftBehind A index self maxTotal fuel state = some left ∧
      ∀ state', next = .inl state' → left.1 = state'.bkTable := by
  cases node with
  | none => exact resume_leftBehind unfinished evaluated advanced
  | some node =>
    obtain rfl := Option.some.inj advanced
    refine ⟨(table, []), ?_, ?_⟩
    · simp only [leftBehind, if_pos unfinished, evaluated, Option.bind_eq_bind, Option.bind_some, Option.pure_def]
    · rintro state' same
      rw [← Sum.inl.inj same]

theorem solveSpecial_leftBehind {state : SearchState D Node Iterator} {number : Nat}
    {next : SearchState D Node Iterator ⊕ Collected Node} (unfinished : state.collected.found < maxTotal)
    (evaluated : evaluate A index self fuel state = solveAt A index self fuel state number)
    (solved : solveSpecial A index self fuel state number = some next) :
    ∃ left, leftBehind A index self maxTotal fuel state = some left ∧
      ∀ state', next = .inl state' → left.1 = state'.bkTable := by
  obtain ⟨ctxt, atEntry, solved⟩ := Option.bind_eq_some_iff.mp solved
  obtain ⟨⟨ctxt', node⟩, solves, advanced⟩ := Option.bind_eq_some_iff.mp solved
  refine advance_leftBehind unfinished (evaluated.trans ?_) advanced
  simp only [solveAt, atEntry, solves, Option.bind_eq_bind, Option.bind_some, Option.pure_def]

/-- **What a round leaves of the table** is what the next one starts with. -/
theorem searchStep_leftBehind {state : SearchState D Node Iterator} {next : SearchState D Node Iterator ⊕ Collected Node}
    (stepped : searchStep A index query self offset size maxTotal fuel state = some next) :
    ∃ left, leftBehind A index self maxTotal fuel state = some left ∧
      ∀ state', next = .inl state' → left.1 = state'.bkTable := by
  by_cases unfinished : state.collected.found < maxTotal
  swap
  · refine ⟨(state.bkTable, []), by rw [leftBehind, if_neg unfinished], ?_⟩
    rintro state' rfl
    rw [searchStep, if_neg unfinished] at stepped
    cases stepped
  rw [searchStep, if_pos unfinished] at stepped
  cases current : self.expr[state.currentToken]? with
  | none =>
    rw [current] at stepped
    obtain ⟨collected, -, resumed⟩ := Option.bind_eq_some_iff.mp stepped
    exact resume_leftBehind unfinished (by rw [evaluate, current]) resumed
  | some triple =>
    obtain ⟨type, meaningId, arity⟩ := triple
    rw [current] at stepped
    cases type with
    | const =>
      obtain ⟨node, child, advanced⟩ := Option.bind_eq_some_iff.mp stepped
      refine advance_leftBehind unfinished ?_ advanced
      simp only [evaluate, current, child, Option.bind_eq_bind, Option.bind_some, Option.pure_def]
    | range => exact solveSpecial_leftBehind unfinished (by rw [evaluate, current]) stepped
    | qvar =>
      obtain ⟨ctxt, atEntry, stepped⟩ := Option.bind_eq_some_iff.mp stepped
      cases ctxt with
      | qvar isSolved iterator =>
        cases isSolved with
        | false =>
          refine solveSpecial_leftBehind unfinished ?_ stepped
          simp only [evaluate, current, atEntry, Option.bind_eq_bind, Option.bind_some]
        | true =>
          obtain ⟨node, replayed, advanced⟩ := Option.bind_eq_some_iff.mp stepped
          refine advance_leftBehind unfinished ?_ advanced
          simp only [evaluate, current, atEntry, replayed, Option.bind_eq_bind, Option.bind_some, Option.pure_def]
      | range isSolved bounds root iterator =>
        cases isSolved with
        | false =>
          refine solveSpecial_leftBehind unfinished ?_ stepped
          simp only [evaluate, current, atEntry, Option.bind_eq_bind, Option.bind_some]
        | true => cases stepped

/-- **A round that is watched**, by the kind of its end. -/
theorem watchedStep_eq {state : SearchState D Node Iterator} {next : SearchState D Node Iterator ⊕ Collected Node}
    (stepped : searchStep A index query self offset size maxTotal fuel state = some next)
    (asked : List (BacktrackCtxt D Node Iterator)) :
    ∃ table more, leftBehind A index self maxTotal fuel state = some (table, more) ∧
      (∀ state', next = .inl state' → table = state'.bkTable) ∧
      watchedStep A index query self offset size maxTotal fuel (state, asked) = some (match next with
        | .inl state' => .inl (state', asked ++ more)
        | .inr _ => .inr (table, asked ++ more)) := by
  obtain ⟨⟨table, more⟩, left, same⟩ := searchStep_leftBehind stepped
  refine ⟨table, more, left, same, ?_⟩
  unfold watchedStep
  simp only [stepped, left, Option.bind_eq_bind, Option.bind_some]
  cases next <;> rfl

/-- **What holds of a watched run**: at the start and behind every round, and so at the end. -/
theorem loop_watchedStep {P : SearchState D Node Iterator → List (BacktrackCtxt D Node Iterator) → Prop}
    {Q : List (BacktrackCtxt D Node Iterator) → List (BacktrackCtxt D Node Iterator) → Prop}
    (round : ∀ {state state' asked more}, P state asked →
      searchStep A index query self offset size maxTotal fuel state = some (.inl state') →
      leftBehind A index self maxTotal fuel state = some (state'.bkTable, more) → P state' (asked ++ more))
    (exit : ∀ {state collected asked table more}, P state asked →
      searchStep A index query self offset size maxTotal fuel state = some (.inr collected) →
      leftBehind A index self maxTotal fuel state = some (table, more) → Q table (asked ++ more)) :
    ∀ (count : Nat) {state : SearchState D Node Iterator} {asked : List (BacktrackCtxt D Node Iterator)}
      {collected : Collected Node}, P state asked →
      Fuel.loop (searchStep A index query self offset size maxTotal fuel) count state = some collected →
      ∃ table asked', Fuel.loop (watchedStep A index query self offset size maxTotal fuel) count (state, asked) =
        some (table, asked') ∧ Q table asked' := by
  intro count
  induction count with
  | zero => intro state asked collected _ looped; cases looped
  | succ count ih =>
    intro state asked collected holds looped
    cases stepped : searchStep A index query self offset size maxTotal fuel state with
    | none => simp [Fuel.loop, stepped] at looped
    | some next =>
      obtain ⟨table, more, left, same, watched⟩ := watchedStep_eq stepped asked
      cases next with
      | inl state' =>
        obtain rfl := same state' rfl
        rw [Fuel.loop_inl stepped] at looped
        rw [Fuel.loop_inl watched]
        exact ih (round holds stepped left) looped
      | inr collected' => exact ⟨table, asked ++ more, Fuel.loop_inr watched, exit holds stepped left⟩

end Watched

/-! ### A simulating accessor -/

section Simulated

variable {Index' Node' Iterator' : Type} {A : Accessor Index Node Iterator} {B : Accessor Index' Node' Iterator'}
  {index : Index} {index' : Index'} {SameNode : Node → Node' → Prop} {SameIterator : Iterator → Iterator' → Prop}
  (simulates : Simulates A B index index' SameNode SameIterator) (context : SearchContext D) (query : DbQuery)
  (offset size maxTotal fuel : Nat)

/-- Corresponding tables. -/
abbrev SameTable (SameNode : Node → Node' → Prop) (SameIterator : Iterator → Iterator' → Prop)
    (table : List (BacktrackCtxt D Node Iterator)) (table' : List (BacktrackCtxt D Node' Iterator')) : Prop :=
  List.Forall₂ (BacktrackCtxt.Same SameNode SameIterator) table table'

/-- Corresponding tables with the nodes to go on with. -/
def SameEvaluated (SameNode : Node → Node' → Prop) (SameIterator : Iterator → Iterator' → Prop)
    (result : List (BacktrackCtxt D Node Iterator) × Option Node)
    (result' : List (BacktrackCtxt D Node' Iterator') × Option Node') : Prop :=
  SameTable SameNode SameIterator result.1 result'.1 ∧ Option.Rel SameNode result.2 result'.2

include simulates

/-- Corresponding contexts are asked. -/
theorem askedLoop_same (last : Nat) {table : List (BacktrackCtxt D Node Iterator)}
    {table' : List (BacktrackCtxt D Node' Iterator')} (same : SameTable SameNode SameIterator table table')
    {left : List (BacktrackCtxt D Node Iterator) × Nat × Option Node}
    (backtracked : backtrackLoop A index context fuel last table = some left) :
    SameTable SameNode SameIterator (askedLoop A index context fuel last table)
      (askedLoop B index' context fuel last table') := by
  induction last generalizing table table' with
  | zero => exact .nil
  | succ last ih =>
    obtain ⟨ctxt, atEntry, rest⟩ := Option.bind_eq_some_iff.mp backtracked
    obtain ⟨⟨next, node⟩, asks, rest⟩ := Option.bind_eq_some_iff.mp rest
    obtain ⟨ctxt', atEntry', entries⟩ := Follows.getElem? same last ctxt atEntry
    obtain ⟨⟨next', node'⟩, asks', nexts, nodes⟩ :=
      BacktrackCtxt.nextSol_follows simulates context.decoder fuel entries _ asks
    unfold askedLoop
    simp only [atEntry, atEntry', asks, asks']
    cases nodes with
    | none => exact .cons entries (ih (forall₂_set same nexts last) rest)
    | some => exact .cons entries .nil

/-- A call of `solve`. -/
theorem solveAt_follows {state : SearchState D Node Iterator} {state' : SearchState D Node' Iterator'}
    (same : state.Same SameNode SameIterator state') (number : Nat) :
    Follows (SameEvaluated SameNode SameIterator) (solveAt A index context fuel state number)
      (solveAt B index' context fuel state' number) := by
  refine .bind (.getElem? same.bkTable number) fun ctxt ctxt' entries => ?_
  refine .bind (BacktrackCtxt.solve_follows simulates context.decoder fuel entries same.currentNode) ?_
  rintro ⟨ctxt, node⟩ ⟨ctxt', node'⟩ ⟨entries', nodes⟩
  exact .value ⟨forall₂_set same.bkTable entries' number, nodes⟩

/-- The evaluation of a token. -/
theorem evaluate_follows {state : SearchState D Node Iterator} {state' : SearchState D Node' Iterator'}
    (same : state.Same SameNode SameIterator state') :
    Follows (SameEvaluated SameNode SameIterator) (evaluate A index context fuel state)
      (evaluate B index' context fuel state') := by
  rw [evaluate, evaluate, ← same.currentToken]
  cases context.expr[state.currentToken]? with
  | none => exact .value ⟨same.bkTable, .none⟩
  | some triple =>
    obtain ⟨type, meaningId, arity⟩ := triple
    cases type with
    | const =>
      exact .bind (simulates.child same.currentNode _) fun node node' nodes => .value ⟨same.bkTable, nodes⟩
    | range => exact solveAt_follows simulates context fuel same arity
    | qvar =>
      refine .bind (.getElem? same.bkTable arity) fun ctxt ctxt' entries => ?_
      cases entries with
      | qvar isSolved iterators =>
        cases isSolved with
        | false => exact solveAt_follows simulates context fuel same arity
        | true =>
          have path := List.rel_reverse iterators.backtrackIterators
          exact .bind (replay_follows simulates path same.currentNode) fun node node' nodes => .value ⟨same.bkTable, nodes⟩
      | range isSolved bounds _ _ => exact solveAt_follows simulates context fuel same arity

/-- What is left of the tables, and the contexts asked, correspond. -/
theorem leftBehind_follows {state : SearchState D Node Iterator} {state' : SearchState D Node' Iterator'}
    (same : state.Same SameNode SameIterator state') :
    Follows (fun left left' => SameTable SameNode SameIterator left.1 left'.1 ∧
        SameTable SameNode SameIterator left.2 left'.2)
      (leftBehind A index context maxTotal fuel state) (leftBehind B index' context maxTotal fuel state') := by
  rw [leftBehind, leftBehind, ← same.collected.found, ← same.lastSolved]
  split_ifs
  · refine .bind (evaluate_follows simulates context fuel same) ?_
    rintro ⟨table, node⟩ ⟨table', node'⟩ ⟨tables, nodes⟩
    cases nodes with
    | some => exact .value ⟨tables, .nil⟩
    | none =>
      intro left backtracked
      obtain ⟨⟨rest, last, found⟩, looped, same⟩ := Option.bind_eq_some_iff.mp backtracked
      obtain rfl := Option.some.inj same
      obtain ⟨⟨rest', last', found'⟩, looped', rests, -⟩ :=
        backtrackLoop_follows simulates context fuel state.lastSolved tables _ looped
      refine ⟨(rest', askedLoop B index' context fuel state.lastSolved table'), ?_, rests,
        askedLoop_same simulates context fuel state.lastSolved tables looped⟩
      exact Option.bind_eq_some_iff.mpr ⟨_, looped', rfl⟩
  · exact .value ⟨same.bkTable, .nil⟩

/-- **The watched run over a simulating accessor** leaves a corresponding table and asks corresponding contexts. -/
theorem watchedRun_follows :
    Follows (fun left left' => SameTable SameNode SameIterator left.1 left'.1 ∧
        SameTable SameNode SameIterator left.2 left'.2)
      (context.watchedRun A index query offset size maxTotal fuel)
      (context.watchedRun B index' query offset size maxTotal fuel) := by
  have start : SameTable SameNode SameIterator ([] : List (BacktrackCtxt D Node Iterator))
    ([] : List (BacktrackCtxt D Node' Iterator')) := .nil
  refine .bind (setupTable_follows context context.expr start) fun table table' tables => ?_
  refine .loop (R := fun run run' => run.1.Same SameNode SameIterator run'.1 ∧ SameTable SameNode SameIterator run.2 run'.2)
    ?_ fuel ⟨⟨tables, rfl, simulates.root, rfl, .nil, rfl, rfl, rfl⟩, .nil⟩
  rintro ⟨state, asked⟩ ⟨state', asked'⟩ ⟨same, asks⟩
  refine .bind (searchStep_follows simulates context query offset _ maxTotal fuel same) fun next next' nexts => ?_
  refine .bind (leftBehind_follows simulates context maxTotal fuel same) ?_
  rintro ⟨left, more⟩ ⟨left', more'⟩ ⟨lefts, mores⟩
  cases nexts with
  | inl nexts => exact .value (.inl ⟨nexts, List.rel_append asks mores⟩)
  | inr => exact .value (.inr ⟨lefts, List.rel_append asks mores⟩)

end Simulated

end SearchContext

end MathWebSearch
