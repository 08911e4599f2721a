/-
**One accessor simulates another** — and then their iterators do.

`Simulates A B index index' SameNode SameIterator` says that whatever `A` answers about a node or an
iterator of `index`, `B` answers about a corresponding one of `index'`. The templates of the source call
nothing else, so a program over `A` that runs without a fault runs alike over `B`; `next_follows` says so
for `IndexIterator`.
-/

import MathWebSearch.Index.IndexIterator
import MathWebSearch.Library.Simulation

namespace MathWebSearch

open Simulation

variable {Index Node Iterator Index' Node' Iterator' : Type}

/-- **The answers of `A` are answers of `B`**, for corresponding nodes and iterators. -/
structure Simulates (A : Accessor Index Node Iterator) (B : Accessor Index' Node' Iterator') (index : Index)
    (index' : Index') (SameNode : Node → Node' → Prop) (SameIterator : Iterator → Iterator' → Prop) : Prop where
  root : SameNode (A.getRootNode index) (B.getRootNode index')
  children : ∀ {node node'}, SameNode node node' →
    Follows SameIterator (A.getChildrenIterator index node) (B.getChildrenIterator index' node')
  hasNext : ∀ {iterator iterator'}, SameIterator iterator iterator' → A.hasNext iterator = B.hasNext iterator'
  next : ∀ {iterator iterator'}, SameIterator iterator iterator' → A.hasNext iterator = true →
    SameIterator (A.next iterator) (B.next iterator')
  token : ∀ {iterator iterator'}, SameIterator iterator iterator' →
    Follows Eq (A.getToken index iterator) (B.getToken index' iterator')
  node : ∀ {iterator iterator'}, SameIterator iterator iterator' →
    Follows SameNode (A.getNode index iterator) (B.getNode index' iterator')
  child : ∀ {node node'}, SameNode node node' → ∀ token,
    Follows (Option.Rel SameNode) (A.getChild index node token) (B.getChild index' node' token)
  formulaId : ∀ {node node'}, SameNode node node' →
    Follows Eq (A.getFormulaId index node) (B.getFormulaId index' node')
  hitsCount : ∀ {node node'}, SameNode node node' →
    Follows Eq (A.getHitsCount index node) (B.getHitsCount index' node')

namespace IndexIterator

/-- Corresponding states of two iterators. -/
structure Same (SameNode : Node → Node' → Prop) (SameIterator : Iterator → Iterator' → Prop)
    (first : IndexIterator Node Iterator) (second : IndexIterator Node' Iterator') : Prop where
  backtrackIterators : List.Forall₂ SameIterator first.backtrackIterators second.backtrackIterators
  arity : first.arity = second.arity
  root : Option.Rel SameNode first.root second.root

variable {A : Accessor Index Node Iterator} {B : Accessor Index' Node' Iterator'} {index : Index}
  {index' : Index'} {SameNode : Node → Node' → Prop} {SameIterator : Iterator → Iterator' → Prop}

theorem same_unset : Same SameNode SameIterator .unset .unset := ⟨.nil, rfl, .none⟩

theorem Same.set {first : IndexIterator Node Iterator} {second : IndexIterator Node' Iterator'}
    (same : Same SameNode SameIterator first second) {node : Node} {node' : Node'}
    (related : SameNode node node') : Same SameNode SameIterator (first.set node) (second.set node') :=
  ⟨same.backtrackIterators, rfl, .some related⟩

theorem push_follows (simulates : Simulates A B index index' SameNode SameIterator)
    {first : IndexIterator Node Iterator} {second : IndexIterator Node' Iterator'}
    (same : Same SameNode SameIterator first second) {iterator : Iterator} {iterator' : Iterator'}
    (related : SameIterator iterator iterator') :
    Follows (Same SameNode SameIterator) (first.push A index iterator) (second.push B index' iterator') := by
  refine .bind (simulates.token related) fun token token' equal => .value ?_
  subst equal
  exact ⟨.cons related same.backtrackIterators, by rw [same.arity], same.root⟩

/-- Corresponding virtual calls. -/
inductive SameEvent (SameIterator : Iterator → Iterator' → Prop) :
    IteratorEvent Iterator → IteratorEvent Iterator' → Prop
  | onPush {iterator : Iterator} {iterator' : Iterator'} : SameIterator iterator iterator' →
      SameEvent SameIterator (.onPush iterator) (.onPush iterator')
  | onPop {iterator : Iterator} {iterator' : Iterator'} : SameIterator iterator iterator' →
      SameEvent SameIterator (.onPop iterator) (.onPop iterator')

/-- The pops; the iterator they leave at the back has a next entry. -/
theorem popLoop_follows (simulates : Simulates A B index index' SameNode SameIterator)
    {stack : List Iterator} {stack' : List Iterator'} (same : List.Forall₂ SameIterator stack stack') :
    ∀ arity : Int, Follows (fun result result' =>
        List.Forall₂ SameIterator result.1 result'.1 ∧ result.2.1 = result'.2.1 ∧
          List.Forall₂ (SameEvent SameIterator) result.2.2 result'.2.2 ∧
          ∀ back ∈ result.1.head?, A.hasNext back = true)
      (popLoop A index stack arity) (popLoop B index' stack' arity) := by
  induction same with
  | nil => exact fun arity => .value ⟨.nil, rfl, .nil, by simp⟩
  | @cons iterator iterator' rest rest' related restRelated ih =>
    intro arity
    rw [popLoop, popLoop, ← simulates.hasNext related]
    by_cases more : A.hasNext iterator = true
    · rw [if_pos more, if_pos more]
      exact .value ⟨.cons related restRelated, rfl, .nil, by simpa using more⟩
    · rw [if_neg more, if_neg more]
      refine .bind (simulates.token related) fun token token' equal => ?_
      subst equal
      refine .bind (ih _) fun result result' popped => .value ?_
      exact ⟨popped.1, popped.2.1, .cons (.onPop related) popped.2.2.1, popped.2.2.2⟩

/-- What `next` returns. -/
def SameResult (SameNode : Node → Node' → Prop) (SameIterator : Iterator → Iterator' → Prop)
    (result : IndexIterator Node Iterator × Option Node × List (IteratorEvent Iterator))
    (result' : IndexIterator Node' Iterator' × Option Node' × List (IteratorEvent Iterator')) : Prop :=
  Same SameNode SameIterator result.1 result'.1 ∧ Option.Rel SameNode result.2.1 result'.2.1 ∧
    List.Forall₂ (SameEvent SameIterator) result.2.2 result'.2.2

theorem head?_follows {stack : List Iterator} {stack' : List Iterator'}
    (same : List.Forall₂ SameIterator stack stack') : Follows SameIterator stack.head? stack'.head? := by
  cases same with
  | nil => exact .fault
  | cons related _ => exact .value related

theorem complete_follows (simulates : Simulates A B index index' SameNode SameIterator) (fuel : Nat)
    {first : IndexIterator Node Iterator} {second : IndexIterator Node' Iterator'}
    (same : Same SameNode SameIterator first second) {events : List (IteratorEvent Iterator)}
    {events' : List (IteratorEvent Iterator')} (sameEvents : List.Forall₂ (SameEvent SameIterator) events events') :
    Follows (SameResult SameNode SameIterator) (complete A index fuel first events)
      (complete B index' fuel second events') := by
  let R (state : IndexIterator Node Iterator × List (IteratorEvent Iterator))
      (state' : IndexIterator Node' Iterator' × List (IteratorEvent Iterator')) : Prop :=
    Same SameNode SameIterator state.1 state'.1 ∧ List.Forall₂ (SameEvent SameIterator) state.2 state'.2
  have step : ∀ state state', R state state' →
      Follows (Sum.LiftRel R R) (completeStep A index state) (completeStep B index' state') := by
    rintro state state' ⟨same, sameEvents⟩
    rw [completeStep, completeStep, ← same.arity]
    by_cases opened : 0 < state.1.arity
    · rw [if_pos opened, if_pos opened]
      refine .bind (head?_follows same.backtrackIterators) fun back back' backs => ?_
      refine .bind (simulates.node backs) fun node node' nodes => ?_
      refine .bind (simulates.children nodes) fun iterator iterator' iterators => ?_
      refine .bind (push_follows simulates same iterators) fun pushed pushed' same => .value (.inl ⟨same, ?_⟩)
      exact List.rel_append sameEvents (.cons (.onPush iterators) .nil)
    · rw [if_neg opened, if_neg opened]
      exact .value (.inr ⟨same, sameEvents⟩)
  have start : R (first, events) (second, events') := ⟨same, sameEvents⟩
  refine .bind (.loop step fuel start) fun state state' reached => ?_
  refine .bind (head?_follows reached.1.backtrackIterators) fun back back' backs => ?_
  exact .bind (simulates.node backs) fun node node' nodes => .value ⟨reached.1, .some nodes, reached.2⟩

/-- **Iterators of simulating accessors return corresponding nodes.** -/
theorem next_follows (simulates : Simulates A B index index' SameNode SameIterator) (fuel : Nat)
    {first : IndexIterator Node Iterator} {second : IndexIterator Node' Iterator'}
    (same : Same SameNode SameIterator first second) :
    Follows (SameResult SameNode SameIterator) (first.next A index fuel) (second.next B index' fuel) := by
  obtain ⟨stack, arity, root⟩ := first
  obtain ⟨stack', arity', root'⟩ := second
  obtain ⟨related, rfl, roots⟩ := same
  cases related with
  | nil =>
    refine .bind (.of_rel roots) fun root root' related => ?_
    refine .bind (simulates.children related) fun iterator iterator' iterators => ?_
    refine .bind (push_follows simulates ⟨.nil, rfl, roots⟩ iterators) fun pushed pushed' same => ?_
    exact complete_follows simulates fuel same (.cons (.onPush iterators) .nil)
  | @cons back back' rest rest' related restRelated =>
    refine .bind (popLoop_follows simulates (.cons related restRelated) arity) ?_
    rintro ⟨left, count, events⟩ ⟨left', count', events'⟩ ⟨lefts, rfl, pops, more⟩
    cases lefts with
    | nil =>
      by_cases closed : count = 1
      · simp only [if_pos closed]
        exact .value ⟨⟨.nil, rfl, roots⟩, .none, pops⟩
      · simp only [if_neg closed]
        exact .fault
    | @cons back back' rest rest' related restRelated =>
      have forward := simulates.next related (more back rfl)
      refine .bind (simulates.token forward) fun token token' equal => ?_
      refine .bind (simulates.token related) fun previous previous' equal' => ?_
      subst equal equal'
      have same : Same SameNode SameIterator
          ⟨A.next back :: rest, count + ((token.arity : Int) - previous.arity), root⟩
          ⟨B.next back' :: rest', count + ((token.arity : Int) - previous.arity), root'⟩ :=
        ⟨.cons forward restRelated, rfl, roots⟩
      exact complete_follows simulates fuel same
        (List.rel_append pops (.cons (.onPop related) (.cons (.onPush forward) .nil)))

end IndexIterator

/-! ### The accessor of the index in memory -/

/-- What can be asked of a node with children only can be asked of any node. -/
theorem simulates_strictAccessor (index : TmpIndex) :
    Simulates strictAccessor tmpIndexAccessor index index Eq Eq where
  root := rfl
  children := by
    rintro node _ rfl iterator computed
    refine ⟨iterator, ?_, rfl⟩
    simp only [strictAccessor_getChildrenIterator] at computed
    split at computed
    · cases computed
    · exact computed
  hasNext := by rintro iterator _ rfl; rfl
  next := by rintro iterator _ rfl _; rfl
  token := by rintro iterator _ rfl token computed; exact ⟨token, computed, rfl⟩
  node := by rintro iterator _ rfl node computed; exact ⟨node, computed, rfl⟩
  child := by
    rintro node _ rfl token child computed
    refine ⟨child, ?_, ?_⟩
    · simp only [strictAccessor_getChild] at computed
      split at computed
      · cases computed
      · exact computed
    · cases child with
      | none => exact .none
      | some child => exact .some rfl
  formulaId := by rintro node _ rfl id computed; exact ⟨id, computed, rfl⟩
  hitsCount := by rintro node _ rfl count computed; exact ⟨count, computed, rfl⟩

/-- A call of `next` that asks no leaf for children comes to the same with the accessor of the source. -/
theorem IndexIterator.next_of_strict {index : TmpIndex} {fuel : Nat}
    {iterator : IndexIterator TmpIndexNode TmpIterator}
    {output : IndexIterator TmpIndexNode TmpIterator × Option TmpIndexNode × List (IteratorEvent TmpIterator)}
    (computed : iterator.next strictAccessor index fuel = some output) :
    iterator.next tmpIndexAccessor index fuel = some output := by
  have rel : ∀ node node' : Option TmpIndexNode, Option.Rel Eq node node' → node = node' := by
    rintro _ _ (@⟨_, _, rfl⟩ | _) <;> rfl
  have events : ∀ event event' : IteratorEvent TmpIterator, SameEvent Eq event event' → event = event' := by
    rintro _ _ (@⟨_, _, rfl⟩ | @⟨_, _, rfl⟩) <;> rfl
  have itself : iterator.Same Eq Eq iterator := by
    refine ⟨List.forall₂_same.mpr fun _ _ => rfl, rfl, ?_⟩
    cases iterator.root with
    | none => exact .none
    | some root => exact .some rfl
  obtain ⟨⟨iterator', node', events'⟩, computed', same, nodes, calls⟩ :=
    next_follows (simulates_strictAccessor index) fuel itself output computed
  rw [computed', Option.some_inj]
  refine Prod.ext ?_ (Prod.ext (rel _ _ nodes).symm ?_)
  · obtain ⟨stack, arity, root⟩ := iterator'
    have sameStack := List.forall₂_eq_eq_eq ▸ same.backtrackIterators
    have sameArity := same.arity
    have sameRoot := rel _ _ same.root
    simp only at sameStack sameArity sameRoot
    subst sameStack sameArity sameRoot
    rfl
  · exact (List.forall₂_eq_eq_eq ▸ calls.imp events : output.2.2 = events').symm

end MathWebSearch
