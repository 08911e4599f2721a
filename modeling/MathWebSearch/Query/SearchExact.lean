/-
**The search finds exactly the leaves that match** (`SearchContext::getResult` on a `TmpIndex`).

The loop of `getResult` is compared with the recursion `solutions`.

* `explore` — from any state in which the table is ready, the run handles the solutions below the current
  node in their order and then comes to a round that backtracks from the same entry, or leaves the loop
  because enough is found.
* `search_spec` — the whole search is the fold of the solution branch over `solutions`.
* `getResult_reached` — the leaves the solution branch is at are those that match, in depth-first order.
-/

import MathWebSearch.Query.SearchSimulation
import MathWebSearch.Query.SearchTable

namespace MathWebSearch

open PrefixCode PatternWord TmpIndexNode

namespace SearchContext

variable {D : Doubles}

/-! ### The run of the loop -/

section Run

variable (context : SearchContext D) (index : TmpIndex) (query : DbQuery) (offset size maxTotal : Nat)

/-- The loop of `getResult` over a `TmpIndex`. -/
abbrev round := @searchStep D TmpIndex TmpIndexNode TmpIterator strictAccessor index query context
  offset size maxTotal

/-- The solution branch, unless enough is found already. -/
def absorb (collected : Collected TmpIndexNode) (node : TmpIndexNode) : Option (Collected TmpIndexNode) :=
  if collected.found < maxTotal then
    solution strictAccessor index query context offset size maxTotal collected node
  else some collected

/-- What a walk from `state` has to do: handle the given nodes and then backtrack from the entries it
started with, or leave the loop because enough is found. -/
def Explored (roles : List TokenRole) (solved : Solved) (table : List (Entry D))
    (state : SearchState D TmpIndexNode TmpIterator) (nodes : List TmpIndexNode) : Prop :=
  ∀ collected', nodes.foldlM (absorb context index query offset size maxTotal) state.collected =
      some collected' →
    (∃ table', SameFront solved.length table table' ∧ Ready context roles solved table' ∧
      Fuel.Leads (round context index query offset size maxTotal) state fun fuel =>
        resume strictAccessor index context fuel table' solved.length collected') ∨
    (maxTotal ≤ collected'.found ∧
      Fuel.Leads (round context index query offset size maxTotal) state fun _ => some (.inr collected'))

variable {context index query offset size maxTotal}

theorem foldlM_absorb_done {collected : Collected TmpIndexNode} (done : maxTotal ≤ collected.found)
    (nodes : List TmpIndexNode) :
    nodes.foldlM (absorb context index query offset size maxTotal) collected = some collected := by
  induction nodes with
  | nil => rfl
  | cons node rest ih =>
    rw [List.foldlM_cons, absorb, if_neg (by omega)]
    exact ih

/-- Asking the last entry for its next solution, when there is one. -/
theorem resume_more {table : List (Entry D)} {last point : Nat} {entry entry' : Entry D}
    {node : TmpIndexNode} (atEntry : table[last]? = some entry)
    (atPoint : context.backtrackPoints[last]? = some point)
    (next : ∃ enough, ∀ fuel, enough ≤ fuel →
      entry.nextSol strictAccessor index context.decoder fuel = some (entry', some node))
    (collected : Collected TmpIndexNode) :
    ∃ enough, ∀ fuel, enough ≤ fuel →
      resume strictAccessor index context fuel table (last + 1) collected =
        some (.inl ⟨table.set last entry', point, node, last + 1, collected⟩) := by
  obtain ⟨enough, computed⟩ := next
  refine ⟨enough, fun fuel more => ?_⟩
  simp [resume, backtrackLoop, atEntry, computed fuel more, atPoint]

/-- Asking the last entry for its next solution, when there is none: the entry before it is asked. -/
theorem resume_last {table : List (Entry D)} {last : Nat} {entry entry' : Entry D}
    (atEntry : table[last]? = some entry)
    (next : ∃ enough, ∀ fuel, enough ≤ fuel →
      entry.nextSol strictAccessor index context.decoder fuel = some (entry', none))
    (collected : Collected TmpIndexNode) :
    ∃ enough, ∀ fuel, enough ≤ fuel →
      resume strictAccessor index context fuel table (last + 1) collected =
        resume strictAccessor index context fuel (table.set last entry') last collected := by
  obtain ⟨enough, computed⟩ := next
  refine ⟨enough, fun fuel more => ?_⟩
  simp [resume, backtrackLoop, atEntry, computed fuel more]

/-- **From one solution of an entry to the next.** When the walk behind the entry does what it has to do
for every word the entry can stand for, the walk through all of its solutions does. -/
theorem explored_offers {roles : List TokenRole} {solved : Solved} {role : TokenRole} {point : Nat}
    {good : EncodedFormula × TmpIndexNode → Prop} (below : EncodedFormula × TmpIndexNode → List TmpIndexNode)
    (atRole : roles[solved.length]? = some role)
    (atPoint : context.backtrackPoints[solved.length]? = some point)
    (later : ∀ {word : EncodedFormula} {node : TmpIndexNode} {table : List (Entry D)}
      (collected : Collected TmpIndexNode), good (word, node) →
      Ready context roles (solved ++ [(role, word)]) table →
      Explored context index query offset size maxTotal roles (solved ++ [(role, word)]) table
        ⟨table, point, node, solved.length + 1, collected⟩ (below (word, node)))
    {word : EncodedFormula} {entry : Entry D} {remaining : List (EncodedFormula × TmpIndexNode)}
    (offers : Offers context index role word entry remaining) :
    ∀ {node : TmpIndexNode} {table : List (Entry D)} (collected : Collected TmpIndexNode),
      (∀ term ∈ (word, node) :: remaining, good term) →
      Ready context roles (solved ++ [(role, word)]) table → table[solved.length]? = some entry →
      Explored context index query offset size maxTotal roles solved table
        ⟨table, point, node, solved.length + 1, collected⟩ (((word, node) :: remaining).flatMap below) := by
  have popped : ∀ (word : EncodedFormula), (solved ++ [(role, word)]).length = solved.length + 1 :=
    fun word => by rw [List.length_append, List.length_singleton]
  induction offers with
  | @last word entry entry' _ next fresh =>
    intro node table collected sound ready atEntry collected' folded
    rw [List.flatMap_singleton] at folded
    rcases later collected (sound _ List.mem_cons_self) ready collected' folded with
      ⟨table', same, ready', leads⟩ | exit
    · left
      rw [popped] at same leads
      refine ⟨table'.set solved.length entry', ?_, ?_, leads.congr (resume_last ?_ next collected')⟩
      · exact SameFront.set (fun number small => same number (by omega)) le_rfl entry'
      · refine ready'.set atRole (fun other different => (getElem?_push_ne _ _ different).symm) ?_
        rw [List.getElem?_eq_none le_rfl]
        exact fresh
      · rw [same solved.length (Nat.lt_succ_self _)]
        exact atEntry
    · exact Or.inr exit
  | @more word word' entry entry' node' rest _ next offers' ih =>
    intro node table collected sound ready atEntry collected' folded
    rw [List.flatMap_cons, List.foldlM_append] at folded
    obtain ⟨middle, front, back⟩ := Option.bind_eq_some_iff.mp folded
    rcases later collected (sound _ List.mem_cons_self) ready middle front with
      ⟨table', same, ready', leads⟩ | ⟨done, exit⟩
    · rw [popped] at same leads
      have atEntry' : table'[solved.length]? = some entry := by
        rw [same solved.length (Nat.lt_succ_self _)]
        exact atEntry
      have moved : Ready context roles (solved ++ [(role, word')]) (table'.set solved.length entry') := by
        refine ready'.set atRole (fun other different => ?_) ?_
        · rw [getElem?_push_ne _ _ different, getElem?_push_ne _ _ different]
        · rw [List.getElem?_append_right le_rfl, Nat.sub_self]
          exact offers'.solvedAs
      have small : solved.length < table'.length := (List.getElem?_eq_some_iff.mp atEntry').1
      have reached := resume_more atEntry' atPoint next middle
      rcases ih middle (fun term member => sound term (List.mem_cons_of_mem _ member)) moved
        (List.getElem?_set_self small) collected' back with ⟨last, sameLast, readyLast, onward⟩ | ⟨done, exit⟩
      · refine Or.inl ⟨last, ?_, readyLast, leads.trans reached onward⟩
        refine SameFront.trans (SameFront.set (fun number small => ?_) le_rfl entry') sameLast
        exact same number (by omega)
      · exact Or.inr ⟨done, leads.trans reached exit⟩
    · rw [foldlM_absorb_done done] at back
      obtain rfl := Option.some.inj back
      exact Or.inr ⟨done, exit⟩

end Run

/-! ### Exploring a query -/

section Explore

/-- The context is the one of a query. -/
structure Compiled (context : SearchContext D) (pattern : EncodedFormula) : Prop where
  expr : context.expr = triples [] pattern
  points : context.backtrackPoints = points [] 0 pattern

variable {context : SearchContext D} {index : TmpIndex} {query : DbQuery} {offset size maxTotal : Nat}
  {pattern front rest : EncodedFormula} {token : EncodedToken}

theorem Compiled.expr_end (compiled : Compiled context pattern) :
    context.expr[pattern.length]? = none := by
  rw [compiled.expr, List.getElem?_eq_none (by rw [length_triples])]

theorem Compiled.expr_at (compiled : Compiled context (front ++ token :: rest)) :
    context.expr[front.length]? = some (triple (specials [] front) token) := by
  rw [compiled.expr, triples_append, List.getElem?_append_right (by rw [length_triples]),
    length_triples, Nat.sub_self, triples, List.getElem?_cons_zero]

theorem specials_concat (front : EncodedFormula) (token : EncodedToken) :
    specials [] (front ++ [token]) = extend (specials [] front) token := by
  rw [specials_append]
  rfl

/-- A token that opens an entry: its role and its backtrack point. -/
theorem Compiled.entry_at (compiled : Compiled context (front ++ token :: rest))
    (new : opens (specials [] front) token) :
    (specials [] (front ++ token :: rest))[(specials [] front).length]? = some token.role ∧
      context.backtrackPoints[(specials [] front).length]? = some (front.length + 1) := by
  constructor
  · obtain ⟨more, grown⟩ := specials_extends rest (specials [] (front ++ [token]))
    rw [← List.singleton_append, ← List.append_assoc, specials_append, grown, specials_concat, extend,
      if_pos new]
    simp
  · have before := length_points front [] 0
    rw [List.length_nil, Nat.zero_add] at before
    rw [compiled.points, points_append, SearchContext.points, if_pos new, ← before,
      List.getElem?_append_right le_rfl, Nat.sub_self]
    simp

/-- The number of a named variable that is solved already. -/
theorem getElem?_idxOf_of_lookup {solved : Solved} {role : TokenRole} {word : EncodedFormula}
    (found : solved.lookup role = some word) :
    solved[(solved.map Prod.fst).idxOf role]? = some (role, word) := by
  induction solved with
  | nil => cases found
  | cons head rest ih =>
    rw [List.lookup_cons] at found
    by_cases same : role = head.1
    · subst same
      simp only [beq_self_eq_true] at found
      rw [List.map_cons, List.idxOf_cons_self, List.getElem?_cons_zero, ← Option.some.inj found]
    · have different : (role == head.1) = false := by simpa using same
      rw [different] at found
      rw [List.map_cons, List.idxOf_cons_ne _ fun equal => same equal.symm, List.getElem?_cons_succ]
      exact ih found

theorem notMem_of_lookup_none {solved : Solved} {role : TokenRole} (missing : solved.lookup role = none) :
    role ∉ solved.map Prod.fst := by
  intro member
  obtain ⟨entry, inside, rfl⟩ := List.mem_map.mp member
  have := List.lookup_eq_none_iff.mp missing entry inside
  simp at this

/-- Walking along the path of a solved variable. -/
theorem replay_eq (index : TmpIndex) {opened : Nat} {stack : List TmpIterator}
    (nonempty : ∀ iterator ∈ stack, iterator ≠ []) (closes : Closes EncodedToken.arity 1 (pathTokens stack))
    {node : TmpIndexNode} (shape : WellFormed (opened + 1) node) :
    replay strictAccessor index stack.reverse node = some (walk (pathTokens stack) node) := by
  have along : ∀ (path : List TmpIterator) {count : Nat} {node : TmpIndexNode},
      (∀ iterator ∈ path, iterator ≠ []) →
      Closes EncodedToken.arity count (path.filterMap fun iterator => iterator.head?.map Prod.fst) →
      WellFormed (opened + count) node →
      replay strictAccessor index path node =
        some (walk (path.filterMap fun iterator => iterator.head?.map Prod.fst) node) := by
    intro path
    induction path with
    | nil => intro count node _ _ _; rfl
    | cons elem rest ih =>
      intro count node nonempty closes shape
      obtain ⟨⟨token, next⟩, more, rfl⟩ := List.exists_cons_of_ne_nil (nonempty elem List.mem_cons_self)
      simp only [List.filterMap_cons, List.head?_cons, Option.map_some] at closes ⊢
      cases count with
      | zero => exact closes.elim
      | succ count =>
        rw [closes_cons] at closes
        have inner := shape.children_ne_nil
        cases found : node.child token with
        | none => simp [replay, walk, found, inner]
        | some next =>
          have onward := ih (fun iterator member => nonempty iterator (List.mem_cons_of_mem _ member)) closes
            (by rw [← Nat.add_assoc]; exact shape.child found)
          simp [replay, walk, found, onward, inner]
  refine along stack.reverse (fun iterator member => nonempty iterator (List.mem_reverse.mp member)) ?_ shape
  exact closes

/-! One round, by the kind of the current token. -/

section Rounds

variable {state : SearchState D TmpIndexNode TmpIterator}

theorem round_end (unfinished : state.collected.found < maxTotal)
    (atEnd : context.expr[state.currentToken]? = none) (fuel : Nat) :
    round context index query offset size maxTotal fuel state =
      (solution strictAccessor index query context offset size maxTotal state.collected
        state.currentNode).bind fun collected =>
          resume strictAccessor index context fuel state.bkTable state.lastSolved collected := by
  simp [searchStep, unfinished, atEnd]

theorem round_const {id arity : Nat} (unfinished : state.collected.found < maxTotal)
    (inner : state.currentNode.children ≠ [])
    (current : context.expr[state.currentToken]? = some ⟨.const, id, arity⟩) (fuel : Nat) :
    round context index query offset size maxTotal fuel state =
      advance strictAccessor index context fuel state state.bkTable state.lastSolved
        (state.currentNode.child (encodedToken id arity)) := by
  simp [searchStep, unfinished, current, inner]

theorem round_replay {id number : Nat} {iterator : IndexIterator TmpIndexNode TmpIterator}
    {word : EncodedFormula} {opened : Nat} (unfinished : state.collected.found < maxTotal)
    (shape : WellFormed (opened + 1) state.currentNode)
    (current : context.expr[state.currentToken]? = some ⟨.qvar, id, number⟩)
    (atEntry : state.bkTable[number]? = some (.qvar true iterator)) (spells : Spells word iterator)
    (complete : Closes EncodedToken.arity 1 word) (fuel : Nat) :
    round context index query offset size maxTotal fuel state =
      advance strictAccessor index context fuel state state.bkTable state.lastSolved
        (walk word state.currentNode) := by
  have path := replay_eq index spells.2 (spells.1.symm ▸ complete) shape
  rw [spells.1] at path
  simp [searchStep, unfinished, current, atEntry, IndexIterator.getPath, path]

theorem round_solve {type : TokType} {id number : Nat} {entry : Entry D} {role : TokenRole}
    (unfinished : state.collected.found < maxTotal)
    (current : context.expr[state.currentToken]? = some ⟨type, id, number⟩) (hole : type ≠ .const)
    (variableFresh : type = .qvar → IsVariable role)
    (atEntry : state.bkTable[number]? = some entry) (fresh : Fresh context role entry) (fuel : Nat) :
    round context index query offset size maxTotal fuel state =
      (entry.solve strictAccessor index context.decoder fuel state.currentNode).bind fun result =>
        advance strictAccessor index context fuel state (state.bkTable.set number result.1) (number + 1)
          result.2 := by
  have solving : solveSpecial strictAccessor index context fuel state number =
      (entry.solve strictAccessor index context.decoder fuel state.currentNode).bind fun result =>
        advance strictAccessor index context fuel state (state.bkTable.set number result.1) (number + 1)
          result.2 := by
    simp [solveSpecial, atEntry]
  rw [← solving]
  cases type with
  | const => exact absurd rfl hole
  | range => simp [searchStep, unfinished, current]
  | qvar =>
    have unsolved : ∃ iterator, entry = .qvar false iterator := by
      rcases variableFresh rfl with rfl | ⟨id, rfl⟩ <;> cases entry with
      | qvar isSolved iterator => exact ⟨iterator, by rw [fresh.1]⟩
      | range => exact fresh.elim
    obtain ⟨iterator, rfl⟩ := unsolved
    simp [searchStep, unfinished, current, atEntry]

/-- Enough is found. -/
theorem Explored.of_done {roles : List TokenRole} {solved : Solved} {table : List (Entry D)}
    (done : maxTotal ≤ state.collected.found) (nodes : List TmpIndexNode) :
    Explored context index query offset size maxTotal roles solved table state nodes := by
  intro collected' folded
  rw [foldlM_absorb_done done] at folded
  obtain rfl := Option.some.inj folded
  refine Or.inr ⟨done, .here ⟨0, fun fuel _ => ?_⟩⟩
  simp [searchStep, Nat.not_lt.mpr done]

/-- One round leads to a state from which the rest is explored. -/
theorem Explored.of_round {roles : List TokenRole} {solved : Solved} {table table' : List (Entry D)}
    (next : SearchState D TmpIndexNode TmpIterator) {nodes : List TmpIndexNode}
    (moved : ∃ enough, ∀ fuel, enough ≤ fuel →
      round context index query offset size maxTotal fuel state = some (.inl next))
    (sameCollected : next.collected = state.collected) (same : SameFront solved.length table table')
    (explored : Explored context index query offset size maxTotal roles solved table' next nodes) :
    Explored context index query offset size maxTotal roles solved table state nodes := by
  intro collected' folded
  rw [← sameCollected] at folded
  have first : Fuel.Leads (round context index query offset size maxTotal) state
      fun _ => some (.inl next) := .here moved
  rcases explored collected' folded with ⟨last, sameLast, ready, leads⟩ | ⟨done, exit⟩
  · exact Or.inl ⟨last, same.trans sameLast, ready, first.trans ⟨0, fun _ _ => rfl⟩ leads⟩
  · exact Or.inr ⟨done, first.trans ⟨0, fun _ _ => rfl⟩ exit⟩

/-- The walk cannot go on. -/
theorem Explored.of_stuck {roles : List TokenRole} {solved : Solved} {table table' : List (Entry D)}
    (stuck : ∃ enough, ∀ fuel, enough ≤ fuel →
      round context index query offset size maxTotal fuel state =
        resume strictAccessor index context fuel table' solved.length state.collected)
    (same : SameFront solved.length table table') (ready : Ready context roles solved table') :
    Explored context index query offset size maxTotal roles solved table state [] := by
  intro collected' folded
  obtain rfl := Option.some.inj folded
  exact Or.inl ⟨table', same, ready, .here stuck⟩

end Rounds

/-- What a range of the query can decide about the tokens of the index. -/
def DecidesKnown (context : SearchContext D) (known : EncodedToken → Prop) (pattern : EncodedFormula) :
    Prop :=
  ∀ token ∈ pattern, ∀ id, token.role = .restricted id → ∀ other, known other → Decides context id other

/-- **A variable or range met for the first time** is solved, and the walk goes through all of its
solutions. -/
theorem explored_special {good : EncodedFormula × TmpIndexNode → Prop} {id : Nat} {type : TokType}
    {solved : Solved} {node : TmpIndexNode} {table : List (Entry D)} {collected : Collected TmpIndexNode}
    {candidates : List (EncodedFormula × TmpIndexNode)}
    (compiled : Compiled context (front ++ token :: rest))
    (entries : solved.map Prod.fst = specials [] front) (unfinished : collected.found < maxTotal)
    (new : opens (specials [] front) token) (hole : type ≠ .const)
    (variableFresh : type = .qvar → IsVariable token.role)
    (current : context.expr[front.length]? = some ⟨type, id, solved.length⟩)
    (solving : ∀ entry : Entry D, Fresh context token.role entry →
      (candidates = [] ∧ ∃ entry', Fresh context token.role entry' ∧ ∃ enough, ∀ fuel, enough ≤ fuel →
        entry.solve strictAccessor index context.decoder fuel node = some (entry', none)) ∨
      ∃ term remaining entry', candidates = term :: remaining ∧
        (∃ enough, ∀ fuel, enough ≤ fuel →
          entry.solve strictAccessor index context.decoder fuel node = some (entry', some term.2)) ∧
        Offers context index token.role term.1 entry' remaining)
    (sound : ∀ term ∈ candidates, good term)
    (ready : Ready context (specials [] (front ++ token :: rest)) solved table)
    (later : ∀ {word : EncodedFormula} {node : TmpIndexNode} {table : List (Entry D)}
      (collected : Collected TmpIndexNode), good (word, node) →
      Ready context (specials [] (front ++ token :: rest)) (solved ++ [(token.role, word)]) table →
      Explored context index query offset size maxTotal (specials [] (front ++ token :: rest))
        (solved ++ [(token.role, word)]) table
        ⟨table, front.length + 1, node, solved.length + 1, collected⟩
        (solutions (accepts context) (solved ++ [(token.role, word)]) rest node)) :
    Explored context index query offset size maxTotal (specials [] (front ++ token :: rest)) solved table
      ⟨table, front.length, node, solved.length, collected⟩
      (candidates.flatMap fun term =>
        solutions (accepts context) (solved ++ [(token.role, term.1)]) rest term.2) := by
  have count : (specials [] front).length = solved.length := by rw [← entries, List.length_map]
  obtain ⟨atRole, atPoint⟩ := compiled.entry_at new
  rw [count] at atRole atPoint
  obtain ⟨entry, atEntry, fresh⟩ := ready.entry solved.length token.role atRole
  rw [List.getElem?_eq_none (le_refl solved.length)] at fresh
  have front' : ∀ entry', SameFront solved.length table (table.set solved.length entry') :=
    fun entry' => SameFront.set (fun _ _ => rfl) le_rfl entry'
  rcases solving entry fresh with ⟨rfl, entry', fresh', enough, unsolved⟩ |
    ⟨term, remaining, entry', rfl, ⟨enough, solves⟩, offers⟩
  · refine .of_stuck ⟨enough, fun fuel more => ?_⟩ (front' entry') ?_
    · rw [round_solve unfinished current hole variableFresh atEntry fresh fuel, unsolved fuel more]
      rfl
    · refine ready.set atRole (fun _ _ => rfl) ?_
      rw [List.getElem?_eq_none le_rfl]
      exact fresh'
  · have small : solved.length < table.length := (List.getElem?_eq_some_iff.mp atEntry).1
    have pushed : Ready context (specials [] (front ++ token :: rest)) (solved ++ [(token.role, term.1)])
        (table.set solved.length entry') := by
      refine ready.set atRole (fun other different => getElem?_push_ne _ _ different) ?_
      rw [List.getElem?_append_right le_rfl, Nat.sub_self]
      exact offers.solvedAs
    refine .of_round ⟨table.set solved.length entry', front.length + 1, term.2, solved.length + 1, collected⟩
      ⟨enough, fun fuel more => ?_⟩ rfl (front' entry') ?_
    · rw [round_solve unfinished current hole variableFresh atEntry fresh fuel, solves fuel more]
      rfl
    · exact explored_offers _ atRole atPoint later offers collected sound pushed
        (List.getElem?_set_self small)

/-- The walk goes on along a word that is given, if the index has it. -/
theorem explored_given {roles : List TokenRole} {solved : Solved} {table : List (Entry D)}
    {position : Nat} {node : TmpIndexNode} {target : Option TmpIndexNode}
    {collected : Collected TmpIndexNode} {below : TmpIndexNode → List TmpIndexNode}
    (moves : ∀ fuel, round context index query offset size maxTotal fuel
        ⟨table, position, node, solved.length, collected⟩ =
      advance strictAccessor index context fuel ⟨table, position, node, solved.length, collected⟩ table
        solved.length target)
    (ready : Ready context roles solved table)
    (later : ∀ next, target = some next →
      Explored context index query offset size maxTotal roles solved table
        ⟨table, position + 1, next, solved.length, collected⟩ (below next)) :
    Explored context index query offset size maxTotal roles solved table
      ⟨table, position, node, solved.length, collected⟩ ((target.map below).getD []) := by
  cases target with
  | none => exact .of_stuck ⟨0, fun fuel _ => moves fuel⟩ (fun _ _ => rfl) ready
  | some next => exact .of_round _ ⟨0, fun fuel _ => moves fuel⟩ rfl (fun _ _ => rfl) (later next rfl)

/-- A candidate of an entry: a complete word, and a sound node behind it. -/
def Candidate (known : EncodedToken → Prop) (opened : Nat) (term : EncodedFormula × TmpIndexNode) : Prop :=
  Closes EncodedToken.arity 1 term.1 ∧ Sound known opened term.2

theorem candidate_term {known : EncodedToken → Prop} {opened : Nat} {node : TmpIndexNode}
    (sound : Sound known (opened + 1) node) :
    ∀ term ∈ node.terms 1, Candidate known opened term :=
  fun _ member => ⟨((mem_terms_iff sound.shape).mp member).1, sound.term member⟩

theorem candidate_accepted {known : EncodedToken → Prop} {opened id : Nat} {node : TmpIndexNode}
    (sound : Sound known (opened + 1) node) :
    ∀ term ∈ accepted context id node.children, Candidate known opened term := by
  intro term member
  obtain ⟨entry, inside, rfl⟩ := List.mem_map.mp member
  obtain ⟨inside, yes⟩ := List.mem_filter.mp inside
  have closed := arity_of_accepts yes
  have below := (sound.entry inside).2
  rw [closed, Nat.add_zero] at below
  refine ⟨?_, below⟩
  rw [closes_cons, closed]
  trivial

/-- **Exploring a query from any of its tokens.** By induction over the rest of the query; the table is
ready for what the tokens in front have solved. -/
theorem explore {known : EncodedToken → Prop} {pattern : EncodedFormula}
    (compiled : Compiled context pattern) (decides : DecidesKnown context known pattern)
    (rest : EncodedFormula) : ∀ (front : EncodedFormula) {solved : Solved} {opened : Nat}
    {node : TmpIndexNode} {table : List (Entry D)} (collected : Collected TmpIndexNode),
    pattern = front ++ rest → solved.map Prod.fst = specials [] front →
    (∀ entry ∈ solved, Closes EncodedToken.arity 1 entry.2) →
    Closes EncodedToken.queryArity opened rest → Sound known opened node →
    Ready context (specials [] pattern) solved table →
    Explored context index query offset size maxTotal (specials [] pattern) solved table
      ⟨table, front.length, node, solved.length, collected⟩
      (solutions (accepts context) solved rest node) := by
  induction rest with
  | nil =>
    intro front solved opened node table collected whole entries complete closes sound ready
    rw [List.append_nil] at whole
    subst whole
    by_cases unfinished : collected.found < maxTotal
    · intro collected' folded
      rw [solutions, List.foldlM_cons, absorb, if_pos unfinished] at folded
      obtain ⟨final, handled, last⟩ := Option.bind_eq_some_iff.mp folded
      obtain rfl := Option.some.inj last
      refine Or.inl ⟨table, fun _ _ => rfl, ready, .here ⟨0, fun fuel _ => ?_⟩⟩
      rw [round_end unfinished compiled.expr_end, handled, Option.bind_some]
    · exact .of_done (Nat.not_lt.mp unfinished) _
  | cons token rest ih =>
    intro front solved opened node table collected whole entries complete closes sound ready
    subst whole
    cases opened with
    | zero => exact closes.elim
    | succ opened =>
      by_cases unfinished : collected.found < maxTotal
      swap
      · exact .of_done (Nat.not_lt.mp unfinished) _
      rw [closes_cons] at closes
      have step : front ++ token :: rest = (front ++ [token]) ++ rest := by simp
      have position : (front ++ [token]).length = front.length + 1 := by simp
      have count : (specials [] front).length = solved.length := by rw [← entries, List.length_map]
      have current := compiled.expr_at
      -- behind a token that opens no entry, the same entries are solved
      have plain : ¬ opens (specials [] front) token → ∀ {opened' : Nat} {next : TmpIndexNode},
          Closes EncodedToken.queryArity opened' rest → Sound known opened' next →
          Explored context index query offset size maxTotal (specials [] (front ++ token :: rest)) solved
            table ⟨table, front.length + 1, next, solved.length, collected⟩
            (solutions (accepts context) solved rest next) := by
        intro old opened' next closes' sound'
        have entries' : solved.map Prod.fst = specials [] (front ++ [token]) := by
          rw [specials_concat, extend, if_neg old, entries]
        have := ih (front ++ [token]) collected step entries' complete closes' sound' ready
        rwa [position] at this
      -- behind one that does, it is solved too
      have special : opens (specials [] front) token → token.role ≠ .constant →
          ∀ {word : EncodedFormula} {node : TmpIndexNode}
          {table : List (Entry D)} (collected : Collected TmpIndexNode), Candidate known opened (word, node) →
          Ready context (specials [] (front ++ token :: rest)) (solved ++ [(token.role, word)]) table →
          Explored context index query offset size maxTotal (specials [] (front ++ token :: rest))
            (solved ++ [(token.role, word)]) table
            ⟨table, front.length + 1, node, solved.length + 1, collected⟩
            (solutions (accepts context) (solved ++ [(token.role, word)]) rest node) := by
        intro new hole word node table collected candidate ready'
        rw [EncodedToken.queryArity, patternArity_hole hole, Nat.add_zero] at closes
        have entries' : (solved ++ [(token.role, word)]).map Prod.fst = specials [] (front ++ [token]) := by
          rw [specials_concat, extend, if_pos new, List.map_append, entries]
          rfl
        have complete' : ∀ entry ∈ solved ++ [(token.role, word)], Closes EncodedToken.arity 1 entry.2 := by
          intro entry member
          rcases List.mem_append.mp member with old | last
          · exact complete entry old
          · rw [List.mem_singleton.mp last]
            exact candidate.1
        have := ih (front ++ [token]) collected step entries' complete' closes candidate.2 ready'
        rwa [position, List.length_append, List.length_singleton] at this
      cases role : token.role with
      | constant =>
        have old : ¬ opens (specials [] front) token := by simp [opens, role]
        rw [EncodedToken.queryArity, patternArity_constant role] at closes
        simp only [triple, role] at current
        simp only [solutions, role]
        refine explored_given (fun fuel => ?_) ready fun next found => plain old closes (sound.child found)
        rw [round_const unfinished sound.shape.children_ne_nil current fuel, EncodedToken.encodedToken_self]
      | named id =>
        have hole : token.role ≠ .constant := by rw [role]; simp
        simp only [triple, role] at current
        simp only [solutions, role]
        cases found : solved.bound id with
        | some word =>
          rw [EncodedToken.queryArity, patternArity_hole hole, Nat.add_zero] at closes
          have atSolved := getElem?_idxOf_of_lookup found
          rw [entries] at atSolved
          have member : .named id ∈ specials [] front := by
            rw [← entries]
            exact List.mem_map.mpr ⟨_, List.mem_of_getElem? atSolved, rfl⟩
          have old : ¬ opens (specials [] front) token := by simpa [opens, role] using member
          have closesWord := complete _ (List.mem_of_getElem? atSolved)
          have atRole : (specials [] (front ++ token :: rest))[(specials [] front).idxOf (.named id)]? =
              some (.named id) := by
            obtain ⟨more, grown⟩ := specials_extends (token :: rest) (specials [] front)
            rw [specials_append, grown, List.getElem?_append_left (List.idxOf_lt_length_of_mem member)]
            exact List.getElem?_idxOf member
          obtain ⟨entry, atEntry, ok⟩ := ready.entry _ _ atRole
          rw [atSolved] at ok
          cases entry with
          | range => exact ok.elim
          | qvar isSolved iterator =>
            obtain ⟨rfl, spells⟩ := ok
            refine explored_given (fun fuel => ?_) ready fun next reached => plain old closes ?_
            · exact round_replay unfinished sound.shape current atEntry spells closesWord fuel
            · exact sound.term ((mem_terms_iff sound.shape).mpr ⟨closesWord, reached⟩)
        | none =>
          have absent : .named id ∉ specials [] front := entries ▸ notMem_of_lookup_none found
          have new : opens (specials [] front) token := by simpa [opens, role] using absent
          rw [List.idxOf_of_notMem absent, count] at current
          have variable' : IsVariable token.role := Or.inr ⟨id, role⟩
          have := explored_special compiled entries unfinished new (by simp) (fun _ => variable') current
            (fun entry fresh => Or.inr (solve_qvar context index variable' fresh sound.shape))
            (candidate_term sound) ready (special new hole)
          rwa [role] at this
      | anonymous =>
        have hole : token.role ≠ .constant := by rw [role]; simp
        have new : opens (specials [] front) token := by simp [opens, role]
        simp only [triple, role, count] at current
        simp only [solutions, role]
        have variable' : IsVariable token.role := Or.inl role
        have := explored_special compiled entries unfinished new (by simp) (fun _ => variable') current
          (fun entry fresh => Or.inr (solve_qvar context index variable' fresh sound.shape))
          (candidate_term sound) ready (special new hole)
        rwa [role] at this
      | restricted id =>
        have hole : token.role ≠ .constant := by rw [role]; simp
        have new : opens (specials [] front) token := by simp [opens, role]
        simp only [triple, role, count] at current
        have scannable : Scannable context id node node.children := by
          refine ⟨fun entry member => ?_, fun entry member => sound.shape.child_of_mem member⟩
          exact decides token (by simp) id role _ (sound.entry member).1
        have := explored_special compiled entries unfinished new (by simp) (by simp) current
          (fun entry fresh => by
            rw [role] at fresh ⊢
            exact solve_range index fresh scannable sound.shape.children_ne_nil)
          (candidate_accepted sound) ready (special new hole)
        rw [accepted, List.flatMap_map, role] at this
        simp only [solutions, role]
        exact this

end Explore

/-! ### The whole search -/

section Search

variable {context : SearchContext D} {index : TmpIndex} {query : DbQuery} {offset size maxTotal : Nat}

theorem Ready.concat {roles : List TokenRole} {table : List (Entry D)}
    (ready : Ready context roles [] table) {role : TokenRole} {entry : Entry D}
    (fresh : Fresh context role entry) : Ready context (roles ++ [role]) [] (table ++ [entry]) := by
  refine ⟨by simp [ready.length], fun number role' found => ?_⟩
  rcases Nat.lt_trichotomy number roles.length with below | same | above
  · rw [List.getElem?_append_left below] at found
    rw [List.getElem?_append_left (by rw [ready.length]; exact below)]
    exact ready.entry number role' found
  · rw [same, List.getElem?_append_right le_rfl, Nat.sub_self] at found
    obtain rfl := Option.some.inj found
    refine ⟨entry, ?_, fresh⟩
    rw [List.getElem?_append_right (by rw [ready.length, same]), ready.length, same, Nat.sub_self]
    rfl
  · rw [List.getElem?_eq_none (by rw [List.length_append, List.length_singleton]; omega)] at found
    cases found

/-- **Setting up the table** makes a fresh entry for every variable and range. -/
theorem setupTable_spec (pattern : EncodedFormula) : ∀ {seen : List TokenRole} {table : List (Entry D)},
    (∀ token ∈ pattern, ∀ id, token.role = .restricted id → (context.rangeBounds.lookup id).isSome) →
    Ready context seen [] table →
    ∃ table', context.setupTable (triples seen pattern) table = some table' ∧
      Ready context (specials seen pattern) [] table' := by
  induction pattern with
  | nil =>
    intro seen table _ ready
    exact ⟨table, rfl, ready⟩
  | cons token rest ih =>
    intro seen table bounds ready
    have bounds' := fun other member => bounds other (List.mem_cons_of_mem token member)
    have length := ready.length
    rw [triples, specials, List.foldl_cons, ← specials, triple, extend, setupTable.eq_def]
    cases role : token.role with
    | constant =>
      obtain ⟨table', setup, ready'⟩ := ih bounds' ready
      refine ⟨table', ?_, ?_⟩
      · simpa [opens, role] using setup
      · simpa [opens, role] using ready'
    | named id =>
      by_cases member : .named id ∈ seen
      · obtain ⟨table', setup, ready'⟩ := ih bounds' ready
        have small := List.idxOf_lt_length_of_mem member
        refine ⟨table', ?_, ?_⟩
        · simpa [opens, role, member, length, small] using setup
        · simpa [opens, role, member] using ready'
      · have fresh : Fresh context (.named id) (.qvar false .unset : Entry D) := ⟨rfl, rfl⟩
        obtain ⟨table', setup, ready'⟩ := ih bounds' (ready.concat fresh)
        refine ⟨table', ?_, ?_⟩
        · simpa [opens, role, member, length, List.idxOf_of_notMem member] using setup
        · simpa [opens, role, member] using ready'
    | anonymous =>
      have fresh : Fresh context .anonymous (.qvar false .unset : Entry D) := ⟨rfl, rfl⟩
      obtain ⟨table', setup, ready'⟩ := ih bounds' (ready.concat fresh)
      refine ⟨table', ?_, ?_⟩
      · simpa [opens, role, length] using setup
      · simpa [opens, role] using ready'
    | restricted id =>
      obtain ⟨limits, found⟩ := Option.isSome_iff_exists.mp (bounds token List.mem_cons_self id role)
      have fresh : Fresh context (.restricted id) (.range false limits none none : Entry D) := found
      obtain ⟨table', setup, ready'⟩ := ih bounds' (ready.concat fresh)
      rw [← EncodedToken.id_of_role role] at found
      refine ⟨table', ?_, ?_⟩
      · simpa [opens, role, length, found] using setup
      · simpa [opens, role] using ready'

/-- **The search is the fold of the solution branch over the solutions of the query.** -/
theorem search_spec {known : EncodedToken → Prop} {pattern : EncodedFormula}
    (compiled : Compiled context pattern) (decides : DecidesKnown context known pattern)
    (bounds : ∀ token ∈ pattern, ∀ id, token.role = .restricted id →
      (context.rangeBounds.lookup id).isSome)
    (closes : Closes EncodedToken.queryArity 1 pattern) (sound : Sound known 1 index.root)
    {collected : Collected TmpIndexNode}
    (folded : (solutions (accepts context) [] pattern index.root).foldlM
      (absorb context index query offset (checkedSize offset size maxTotal) maxTotal) nothing =
        some collected) :
    ∃ enough, ∀ fuel, enough ≤ fuel →
      context.search strictAccessor index query fuel offset size maxTotal = some collected := by
  have start : Ready context [] [] ([] : List (Entry D)) := ⟨rfl, fun number role found => by cases found⟩
  obtain ⟨table, setup, ready⟩ := setupTable_spec pattern bounds start
  have leads : Fuel.Leads
      (round context index query offset (checkedSize offset size maxTotal) maxTotal)
      ⟨table, 0, index.root, 0, nothing⟩ fun _ => some (.inr collected) := by
    rcases explore compiled decides pattern [] nothing rfl rfl (by simp) closes sound ready collected folded
      with ⟨table', _, _, leads⟩ | ⟨_, exit⟩
    · exact leads.congr ⟨0, fun fuel _ => rfl⟩
    · exact exit
  obtain ⟨enough, looped⟩ := leads.loop_eq
    (searchStep_mono strictAccessor index query context offset _ maxTotal)
  refine ⟨enough, fun fuel more => ?_⟩
  rw [search, compiled.expr, setup]
  exact looped fuel more

/-- The hits of a leaf, as the solution branch counts them. -/
def hits (options : QueryOptions) (leaf : TmpLeaf) : Nat := if options.includeHits then leaf.solutions else 1

/-- **The solution branch at a leaf** counts its hits and goes through when the database does. -/
theorem solution_leaf {collected : Collected TmpIndexNode} {leaf : TmpLeaf} {answers : List Answer}
    (stored : context.options.includeHits = true →
      fetch query offset size collected.found leaf.id = some answers) :
    ∃ ids, solution strictAccessor index query context offset size maxTotal collected (leafNode leaf) =
      some ⟨collected.reached ++ [leafNode leaf],
        addHits maxTotal collected.found (hits context.options leaf),
        collected.answers ++ (if onPage offset size collected.found (hits context.options leaf) &&
          context.options.includeHits then answers else []), ids⟩ := by
  unfold solution hits
  cases includeHits : context.options.includeHits with
  | true =>
    cases page : onPage offset size collected.found leaf.solutions with
    | true => cases context.options.includeMwsIds <;> simp [leafNode, stored includeHits, page]
    | false => simp [leafNode, page]
  | false =>
    cases page : onPage offset size collected.found 1 with
    | true => cases context.options.includeMwsIds <;> simp [leafNode, page]
    | false => simp [page]

/-- Absorbing leaves whose hits do not add up to `maxTotal`: every one of them is handled. -/
theorem foldlM_absorb_leaves (index : TmpIndex) (offset size : Nat)
    (answers : ∀ id offset size, (query id offset size).isSome)
    (small : maxTotal ≤ 2 ^ 32) (entries : List (EncodedFormula × TmpLeaf)) :
    ∀ {collected : Collected TmpIndexNode},
      collected.found + (entries.map fun entry => hits context.options entry.2).sum < maxTotal →
      ∃ collected', (leafNodes entries).foldlM (absorb context index query offset size maxTotal) collected =
          some collected' ∧ collected'.reached = collected.reached ++ leafNodes entries := by
  induction entries with
  | nil =>
    intro collected _
    exact ⟨collected, rfl, (List.append_nil _).symm⟩
  | cons entry rest ih =>
    intro collected below
    rw [List.map_cons, List.sum_cons] at below
    have fetched : (fetch query offset size collected.found entry.2.id).isSome := by
      unfold fetch
      split <;> exact answers _ _ _
    obtain ⟨found, stored⟩ := Option.isSome_iff_exists.mp fetched
    have counted : addHits maxTotal collected.found (hits context.options entry.2) =
        collected.found + hits context.options entry.2 := by
      unfold addHits
      rw [Nat.mod_eq_of_lt (by omega), if_neg (by omega)]
    obtain ⟨next, handled, reachedNext, foundNext⟩ : ∃ next,
        solution strictAccessor index query context offset size maxTotal collected (leafNode entry.2) =
          some next ∧ next.reached = collected.reached ++ [leafNode entry.2] ∧
        next.found = collected.found + hits context.options entry.2 := by
      obtain ⟨ids, handled⟩ := solution_leaf fun _ => stored
      exact ⟨_, handled, rfl, counted⟩
    obtain ⟨collected', folded, reached⟩ := ih (show next.found + _ < maxTotal by rw [foundNext]; omega)
    refine ⟨collected', ?_, ?_⟩
    · rw [leafNodes, List.map_cons, List.foldlM_cons, absorb, if_pos (by omega), handled]
      exact folded
    · rw [reached, reachedNext, leafNodes, leafNodes, List.map_cons, List.append_assoc,
        List.singleton_append]

end Search

/-! ### Exactness -/

section Exact

variable (options : QueryOptions) (rangeBounds : List (Nat × D.Carrier × D.Carrier))
  (meaningDict : Option MeaningDictionary) (query : DbQuery)

/-- The decoder knows the meaning of every token without children in the index. -/
def Decodes (index : TmpIndex) : Prop :=
  ∀ entry ∈ index.leaves, ∀ token ∈ entry.1, token.arity = 0 →
    ∃ dictionary meaning, meaningDict = some dictionary ∧
      (ExpressionDecoder.new dictionary).getMeaning token.id = some meaning

theorem compiled_new (pattern : EncodedFormula) :
    Compiled (new pattern options rangeBounds meaningDict) pattern := by
  obtain ⟨_, expr, points⟩ := new_spec pattern options rangeBounds meaningDict
  exact ⟨expr, points⟩

/-- A range with bounds decides about every token the decoder knows. -/
theorem decides_of_decodes {pattern : EncodedFormula} {id : Nat} {token : EncodedToken}
    (bounds : (rangeBounds.lookup id).isSome)
    (decodes : token.arity = 0 → ∃ dictionary meaning, meaningDict = some dictionary ∧
      (ExpressionDecoder.new dictionary).getMeaning token.id = some meaning) :
    Decides (new pattern options rangeBounds meaningDict) id token := by
  obtain ⟨limits, found⟩ := Option.isSome_iff_exists.mp bounds
  by_cases flat : token.arity = 0
  · obtain ⟨dictionary, meaning, rfl, known⟩ := decodes flat
    exact ⟨limits, _, found, validSubst_of_meaning D limits known flat⟩
  · exact ⟨limits, false, found, validSubst_of_arity D limits flat⟩

theorem isRange_of_role {token : EncodedToken} {id : Nat} (role : token.role = .restricted id) :
    token.isRange = true := by
  unfold EncodedToken.role at role
  split at role
  · split at role <;> cases role
  · split at role
    · assumption
    · cases role

variable {options rangeBounds meaningDict query}

/-- The matching leaves of an index, with the substitution spelled out. -/
theorem matching_eq_filter (accepts : Nat → EncodedToken → Bool) (pattern : EncodedFormula)
    (node : TmpIndexNode) [DecidablePred fun entry : EncodedFormula × TmpLeaf =>
      ∃ substitution, Instance EncodedToken.arity EncodedToken.role accepts substitution pattern entry.1] :
    matching accepts (fun _ => none) pattern node = (leaves node).filter fun entry =>
      ∃ substitution, Instance EncodedToken.arity EncodedToken.role accepts substitution pattern entry.1 := by
  unfold matching
  refine List.filter_congr fun entry _ => ?_
  rw [decide_eq_decide]
  constructor
  · rintro ⟨substitution, _, inst⟩
    exact ⟨substitution, inst⟩
  · rintro ⟨substitution, inst⟩
    exact ⟨substitution, fun _ _ found => by simp at found, inst⟩

/-- The search on a well-formed trie is the fold over its matching leaves. -/
theorem search_shaped {index : TmpIndex} (shape : WellFormed 1 index.root)
    {pattern : EncodedFormula} (complete : pattern.IsQueryCode)
    (bounds : ∀ token ∈ pattern, token.isRange = true → (rangeBounds.lookup token.id).isSome)
    (decodes : (∃ token ∈ pattern, token.isRange = true) → Decodes meaningDict index)
    {offset size maxTotal : Nat} {collected : Collected TmpIndexNode}
    (folded : (leafNodes (matching (accepts (new pattern options rangeBounds meaningDict)) (fun _ => none)
        pattern index.root)).foldlM
      (absorb (new pattern options rangeBounds meaningDict) index query offset
        (checkedSize offset size maxTotal) maxTotal) nothing = some collected) :
    ∃ enough, ∀ fuel, enough ≤ fuel →
      (new pattern options rangeBounds meaningDict).search strictAccessor index query fuel offset size
        maxTotal = some collected := by
  have closes := EncodedFormula.isQueryCode_iff.mp complete
  have limits : ∀ token ∈ pattern, ∀ id, token.role = .restricted id → (rangeBounds.lookup id).isSome := by
    intro token member id role
    rw [← EncodedToken.id_of_role role]
    exact bounds token member (isRange_of_role role)
  let known : EncodedToken → Prop := fun token => ∃ entry ∈ index.leaves, token ∈ entry.1
  have sound : Sound known 1 index.root := ⟨shape, fun entry member token among => ⟨entry, member, among⟩⟩
  refine search_spec (compiled_new options rangeBounds meaningDict pattern) ?_ limits closes sound ?_
  · intro token member id role other among
    obtain ⟨entry, stored, inside⟩ := among
    refine decides_of_decodes options rangeBounds meaningDict (limits token member id role) ?_
    exact decodes ⟨token, member, isRange_of_role role⟩ entry stored other inside
  · rw [solutions_eq_matching (fun id token yes => arity_of_accepts yes) pattern shape closes
      (fun id word found => by cases found)]
    exact folded

open Classical in
/-- **Search exactness.** On every non-empty index and for every complete query, the leaves at which the
solution branch of `getResult` arrives are the leaves of the index, in depth-first order, whose formulas
are the query under some substitution. -/
theorem getResult_reached {index : TmpIndex} (built : index.Built) (nonempty : ¬ index.IsEmpty)
    {pattern : EncodedFormula} (complete : pattern.IsQueryCode)
    (bounds : ∀ token ∈ pattern, token.isRange = true → (rangeBounds.lookup token.id).isSome)
    (decodes : (∃ token ∈ pattern, token.isRange = true) → Decodes meaningDict index)
    (answers : ∀ id offset size, (query id offset size).isSome) (offset size : Nat) {maxTotal : Nat}
    (small : maxTotal < 2 ^ 32)
    (more : ((index.leaves.filter fun entry => ∃ substitution,
        Instance EncodedToken.arity EncodedToken.role (accepts (new pattern options rangeBounds meaningDict))
          substitution pattern entry.1).map fun entry => hits options entry.2).sum < maxTotal) :
    (index.leaves.map Prod.fst).Nodup ∧
    ∃ enough, ∀ fuel, enough ≤ fuel → ∃ collected,
      (new pattern options rangeBounds meaningDict).search tmpIndexAccessor index query fuel offset size
        maxTotal = some collected ∧
      collected.reached = (index.leaves.filter fun entry => ∃ substitution,
        Instance EncodedToken.arity EncodedToken.role (accepts (new pattern options rangeBounds meaningDict))
          substitution pattern entry.1).map fun entry => leafNode entry.2 := by
  refine ⟨built.shaped.leaves_nodup, ?_⟩
  have filtered := matching_eq_filter (accepts (new pattern options rangeBounds meaningDict)) pattern index.root
  have start : (nothing : Collected TmpIndexNode).found + ((matching
      (accepts (new pattern options rangeBounds meaningDict)) (fun _ => none) pattern index.root).map
        fun entry => hits (new pattern options rangeBounds meaningDict).options entry.2).sum < maxTotal := by
    rw [filtered, show (nothing : Collected TmpIndexNode).found = 0 from rfl, Nat.zero_add]
    exact more
  obtain ⟨collected, folded, reached⟩ := foldlM_absorb_leaves index offset
    (checkedSize offset size maxTotal) answers small.le _ start
  obtain ⟨enough, searched⟩ := search_shaped (built.wellFormed nonempty) complete bounds decodes folded
  refine ⟨enough, fun fuel enough' => ⟨collected, search_of_strict (searched fuel enough'), ?_⟩⟩
  rw [reached, filtered]
  rfl

/-- Three meanings: a function `f`, a variable `x` and the number 3. -/
def sampleDictionary : MeaningDictionary :=
  ((((IdDictionary.empty.put ['f', '#']).1.put ['x', '#']).1).put ['c', 'n', '#', '3']).1

/-- `f(x, x, 3)` and `f(x, 3, 3)`. -/
def sampleFormulas : List EncodedFormula :=
  [[encodedToken 162 3, encodedToken 163 0, encodedToken 163 0, encodedToken 164 0],
    [encodedToken 162 3, encodedToken 163 0, encodedToken 164 0, encodedToken 164 0]]

/-- Their index, the first of them counted once. -/
def sampleIndex : TmpIndex :=
  ((TmpIndex.empty 0).insertAll sampleFormulas).addSolution
    [encodedToken 162 3, encodedToken 163 0, encodedToken 163 0, encodedToken 164 0]

/-- `f(v, v, r)` with a variable `v` and a range `r` from 1 to 5. -/
def sampleQuery : EncodedFormula :=
  [encodedToken 162 3, encodedToken 2 1, encodedToken 2 1, encodedToken 129 1]

def sampleContext : SearchContext Doubles.whole :=
  new sampleQuery {} [(129, ((1 : Nat), (5 : Nat)))] (some sampleDictionary)

theorem sampleIndex_built : sampleIndex.Built ∧ ¬ sampleIndex.IsEmpty := by
  have codes : ((TmpIndex.empty 0).insertAll sampleFormulas).Built :=
    ((TmpIndex.Built.empty 0).insertAll (by decide)).1
  have stored : ((TmpIndex.empty 0).insertAll sampleFormulas).leafAt
      [encodedToken 162 3, encodedToken 163 0, encodedToken 163 0, encodedToken 164 0] = some ⟨1, 0⟩ := by
    decide
  exact ⟨.addSolution codes stored, fun empty => absurd (congrArg List.length empty) (by decide)⟩

theorem sampleIndex_decodes : Decodes (some sampleDictionary) sampleIndex := by
  have known : ∀ entry ∈ sampleIndex.leaves, ∀ token ∈ entry.1, token.arity = 0 →
      ((ExpressionDecoder.new sampleDictionary).getMeaning token.id).isSome := by decide
  intro entry member token among flat
  obtain ⟨meaning, found⟩ := Option.isSome_iff_exists.mp (known entry member token among flat)
  exact ⟨sampleDictionary, meaning, rfl, found⟩

open Classical in
/-- The search for `f(v, v, r)` in an index of two formulas. -/
theorem getResult_reached_sample :
    ∃ enough, ∀ fuel, enough ≤ fuel → ∃ collected,
      sampleContext.search tmpIndexAccessor sampleIndex (fun _ _ _ => some []) fuel 0 10 10 =
        some collected ∧
      collected.reached = (sampleIndex.leaves.filter fun entry => ∃ substitution,
        Instance EncodedToken.arity EncodedToken.role (accepts sampleContext) substitution sampleQuery
          entry.1).map fun entry => leafNode entry.2 := by
  refine (getResult_reached sampleIndex_built.1 sampleIndex_built.2 (by decide) (by decide)
    (fun _ => sampleIndex_decodes) (fun _ _ _ => rfl) 0 10 (by decide) ?_).2
  refine lt_of_le_of_lt (List.Sublist.sum_le_sum ((List.filter_sublist).map _) (by simp)) ?_
  decide

end Exact

end SearchContext

end MathWebSearch
