/-
**Accessors and the index iterator** (`TmpIndexAccessor.hpp`, `IndexIterator.hpp`,
`CallbackIndexIterator.hpp`, `ContainerIterator.hpp`).

The search, the exporter and the analytics are templates over an accessor. `Accessor` is its
interface; everything it does on a dangling iterator, a null node or a node of the wrong kind is
undefined and modelled as `none`.

`IndexIterator` keeps the list `_backtrackIterators` (here with its back first), the count `_arity`
of open subterms and the node it started at. One call of `next` reports, besides the node, the
calls of the virtual `onPush` and `onPop` it made, in order; a plain iterator ignores them, a
`CallbackIndexIterator` hands them to its callbacks.
-/

import MathWebSearch.Index.TmpIndex
import MathWebSearch.Library.Fuel

namespace MathWebSearch

/-- The interface the templates use. `getChild` distinguishes a null child (`some none`) from
undefined behaviour (`none`). -/
structure Accessor (Index Node Iterator : Type) where
  getRootNode : Index → Node
  getChildrenIterator : Index → Node → Option Iterator
  hasNext : Iterator → Bool
  next : Iterator → Iterator
  getToken : Index → Iterator → Option EncodedToken
  getNode : Index → Iterator → Option Node
  getChild : Index → Node → EncodedToken → Option (Option Node)
  getFormulaId : Index → Node → Option Nat
  getHitsCount : Index → Node → Option Nat

/-- A `ContainerIterator` over the children vector: what is left of the vector, the current entry
first. -/
abbrev TmpIterator := List (EncodedToken × TmpIndexNode)

/-- `TmpIndexAccessor`. -/
@[simps]
def tmpIndexAccessor : Accessor TmpIndex TmpIndexNode TmpIterator where
  getRootNode index := index.root
  getChildrenIterator _ node := some node.children
  hasNext iterator := !iterator.tail.isEmpty
  next iterator := iterator.tail
  getToken _ iterator := iterator.head?.map Prod.fst
  getNode _ iterator := iterator.head?.map Prod.snd
  getChild _ node token := some (node.child token)
  getFormulaId _ node := node.leaf.map TmpLeaf.id
  getHitsCount _ node := node.leaf.map TmpLeaf.solutions

/-- `TmpIndexAccessor` where every accessor has to answer: nobody may ask a node without children for
them. What is proved of a program over this accessor carries over to those that follow it. -/
@[simps]
def strictAccessor : Accessor TmpIndex TmpIndexNode TmpIterator where
  getRootNode index := index.root
  getChildrenIterator _ node := if node.children.isEmpty then none else some node.children
  hasNext iterator := !iterator.tail.isEmpty
  next iterator := iterator.tail
  getToken _ iterator := iterator.head?.map Prod.fst
  getNode _ iterator := iterator.head?.map Prod.snd
  getChild _ node token := if node.children.isEmpty then none else some (node.child token)
  getFormulaId _ node := node.leaf.map TmpLeaf.id
  getHitsCount _ node := node.leaf.map TmpLeaf.solutions

/-- A call of one of the two virtual methods. -/
inductive IteratorEvent (Iterator : Type) where
  | onPush (iterator : Iterator)
  | onPop (iterator : Iterator)

/-- The fields of an `IndexIterator`; `root` is unset until `set` is called. The count of open subterms is of type `int`
in the source, which is the same as long as no beginning of a stored formula leaves `2 ^ 31` of them open. -/
structure IndexIterator (Node Iterator : Type) where
  backtrackIterators : List Iterator
  arity : Int
  root : Option Node

namespace IndexIterator

variable {Index Node Iterator : Type}

/-- A default-constructed iterator; the source leaves `_arity` and `_root` indeterminate. -/
def unset : IndexIterator Node Iterator := ⟨[], 0, none⟩

/-- An iterator constructed at a node. -/
def start (root : Node) : IndexIterator Node Iterator := ⟨[], 1, some root⟩

/-- `set`: the list of iterators is left as it is. -/
def set (self : IndexIterator Node Iterator) (root : Node) : IndexIterator Node Iterator :=
  { self with arity := 1, root := some root }

variable (A : Accessor Index Node Iterator) (index : Index)

/-- `_push`. -/
def push (self : IndexIterator Node Iterator) (iterator : Iterator) :
    Option (IndexIterator Node Iterator) := do
  let token ← A.getToken index iterator
  return { self with
    arity := self.arity + ((token.arity : Int) - 1)
    backtrackIterators := iterator :: self.backtrackIterators }

/-- The loop that pops every iterator without a next entry. -/
def popLoop : List Iterator → Int → Option (List Iterator × Int × List (IteratorEvent Iterator))
  | [], arity => some ([], arity, [])
  | iterator :: rest, arity =>
    if A.hasNext iterator then some (iterator :: rest, arity, [])
    else do
      let token ← A.getToken index iterator
      let (left, arity, events) ← popLoop rest (arity - ((token.arity : Int) - 1))
      return (left, arity, .onPop iterator :: events)

/-- One round of the loop that completes the expression. -/
def completeStep (state : IndexIterator Node Iterator × List (IteratorEvent Iterator)) :
    Option ((IndexIterator Node Iterator × List (IteratorEvent Iterator)) ⊕
      (IndexIterator Node Iterator × List (IteratorEvent Iterator))) :=
  if 0 < state.1.arity then do
    let back ← state.1.backtrackIterators.head?
    let node ← A.getNode index back
    let iterator ← A.getChildrenIterator index node
    let self ← state.1.push A index iterator
    return .inl (self, state.2 ++ [.onPush iterator])
  else some (.inr state)

/-- The part of `next` behind the first branch: complete the expression and return its node. -/
def complete (fuel : Nat) (self : IndexIterator Node Iterator)
    (events : List (IteratorEvent Iterator)) :
    Option (IndexIterator Node Iterator × Option Node × List (IteratorEvent Iterator)) := do
  let (self, events) ← Fuel.loop (completeStep A index) fuel (self, events)
  let back ← self.backtrackIterators.head?
  let node ← A.getNode index back
  return (self, some node, events)

/-- `next`: the iterator, the node (`none` for the null pointer) and the virtual calls made. -/
def next (fuel : Nat) (self : IndexIterator Node Iterator) :
    Option (IndexIterator Node Iterator × Option Node × List (IteratorEvent Iterator)) :=
  match self.backtrackIterators with
  | [] => do
    -- add first branch
    let root ← self.root
    let iterator ← A.getChildrenIterator index root
    let self ← self.push A index iterator
    complete A index fuel self [.onPush iterator]
  | _ => do
    -- or find first unexplored branch
    let (left, arity, events) ← popLoop A index self.backtrackIterators self.arity
    match left with
    | [] => if arity = 1 then return ({ self with backtrackIterators := [], arity }, none, events)
            else none
    | back :: rest =>
      -- `_next`
      let forward := A.next back
      let token ← A.getToken index forward
      let previous ← A.getToken index back
      complete A index fuel
        { self with
          backtrackIterators := forward :: rest
          arity := arity + ((token.arity : Int) - previous.arity) }
        (events ++ [.onPop back, .onPush forward])

/-- `getPath`: the iterators from the first branch to the last. -/
def getPath (self : IndexIterator Node Iterator) : List Iterator := self.backtrackIterators.reverse

/-- More fuel does not change a computed `next`. -/
theorem next_mono : Fuel.FuelMono (next A index) := by
  have completeMono : ∀ fuel (self : IndexIterator Node Iterator) events,
      Fuel.Below (complete A index fuel self events) (complete A index (fuel + 1) self events) :=
    fun fuel self events => .bind (Fuel.loop_mono _ fuel (self, events)) fun _ => .refl _
  intro fuel self
  unfold next
  split
  · exact .bind (.refl _) fun root => .bind (.refl _) fun iterator => .bind (.refl _) fun self =>
      completeMono fuel self _
  · refine .bind (.refl _) fun popped => ?_
    obtain ⟨left, arity, events⟩ := popped
    cases left with
    | nil => exact .refl _
    | cons back rest =>
      exact .bind (.refl _) fun token => .bind (.refl _) fun previous => completeMono fuel _ _

end IndexIterator

end MathWebSearch
