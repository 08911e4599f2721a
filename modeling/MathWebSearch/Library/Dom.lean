/-
**Trees of document nodes, and walks with an explicit stack.**

A node is known by its place: the numbers of the child nodes on the way to it from the document.

* `walk` — a walk that keeps, for every open element, a pointer to the sibling that comes next.
* `walk_eq` — **it visits what the recursion visits**, in document order.
* `countP_visitsOf_le` — it visits no node twice, so that there are no more visits to nodes of a kind than such nodes.
-/

import Mathlib

namespace Dom

variable {α : Type}

/-- An attribute; two attributes of an element may differ in their namespaces only. -/
structure Attribute (α : Type) where
  namespaced : Bool
  name : List α
  value : List α
deriving DecidableEq

/-- A node; `other` is everything that is neither an element nor a text. -/
inductive Node (α : Type) where
  | element (ns : Option (List α)) (name : List α) (attributes : List (Attribute α)) (children : List (Node α))
  | text (content : List α)
  | other (content : List α)

/-- The child numbers on the way to a node. -/
abbrev Place := List Nat

namespace Node

/-- `node->children`. -/
def children : Node α → List (Node α)
  | element _ _ _ children => children
  | text _ | other _ => []

/-- The attributes. -/
def attributes : Node α → List (Attribute α)
  | element _ _ attributes _ => attributes
  | text _ | other _ => []

/-- Other child nodes. -/
def withChildren (children : List (Node α)) : Node α → Node α
  | element ns name attributes _ => element ns name attributes children
  | text content => text content
  | other content => other content

section Count

variable (counted : Node α → Bool)

mutual

/-- The number of nodes of a kind. -/
def count : Node α → Nat
  | element ns name attributes children => (counted (element ns name attributes children)).toNat + countAll children
  | text content => (counted (text content)).toNat
  | other content => (counted (other content)).toNat

def countAll : List (Node α) → Nat
  | [] => 0
  | node :: rest => node.count + countAll rest

end

theorem count_eq (node : Node α) : node.count counted = (counted node).toNat + countAll counted node.children := by
  cases node with
  | element ns name attributes inner => rw [count, Node.children]
  | text content => rw [count, Node.children, countAll, Nat.add_zero]
  | other content => rw [count, Node.children, countAll, Nat.add_zero]

theorem count_le_countAll {forest : List (Node α)} {node : Node α} (member : node ∈ forest) :
    node.count counted ≤ countAll counted forest := by
  induction forest with
  | nil => exact absurd member List.not_mem_nil
  | cons first rest ih =>
    rw [countAll]
    rcases List.mem_cons.mp member with rfl | later
    · exact Nat.le_add_right _ _
    · exact le_trans (ih later) (Nat.le_add_left _ _)

end Count

/-- The number of nodes. -/
def size (node : Node α) : Nat := node.count fun _ => true

def sizes (forest : List (Node α)) : Nat := countAll (fun _ => true) forest

end Node

/-! ### Places -/

/-- The child nodes of the document, or of the node at a place. -/
def childrenAt : List (Node α) → Place → List (Node α)
  | forest, [] => forest
  | forest, number :: place => childrenAt ((forest[number]?).elim [] Node.children) place

/-- The node at a place; there is none at the place of the document. -/
def nodeAt : List (Node α) → Place → Option (Node α)
  | _, [] => none
  | forest, [number] => forest[number]?
  | forest, number :: place => (forest[number]?).bind fun node => nodeAt node.children place

/-- The document with another node at a place. -/
def modifyAt (change : Node α → Node α) : List (Node α) → Place → List (Node α)
  | forest, [] => forest
  | forest, [number] => forest.modify number change
  | forest, number :: place => forest.modify number fun node => node.withChildren (modifyAt change node.children place)

/-- Siblings with their places, from a number on. -/
def siblings (place : Place) : Nat → List (Node α) → List (Place × Node α)
  | _, [] => []
  | number, node :: rest => (place ++ [number], node) :: siblings place (number + 1) rest

/-! ### Walks -/

section Walks

variable (descends : Node α → Bool)

mutual

/-- The nodes that a walk visits at a node, with their places. -/
def visits : Place → Node α → List (Place × Node α)
  | place, .element ns name attributes children =>
    (place, .element ns name attributes children) ::
      if descends (.element ns name attributes children) then visitsOf place 0 children else []
  | place, .text content => [(place, .text content)]
  | place, .other content => [(place, .other content)]

/-- The nodes that a walk visits among siblings. -/
def visitsOf : Place → Nat → List (Node α) → List (Place × Node α)
  | _, _, [] => []
  | place, number, node :: rest => visits (place ++ [number]) node ++ visitsOf place (number + 1) rest

end

/-- At one node: itself, and what is below it where the walk goes down. -/
theorem visits_eq (place : Place) (node : Node α) : visits descends place node =
    (place, node) :: if descends node then visitsOf descends place 0 node.children else [] := by
  cases node with
  | element ns name attributes children => rw [visits, Node.children]
  | text content => rw [visits, Node.children, visitsOf, ite_self]
  | other content => rw [visits, Node.children, visitsOf, ite_self]

theorem visitsOf_eq (place : Place) (forest : List (Node α)) : ∀ number,
    visitsOf descends place number forest = (siblings place number forest).flatMap fun entry =>
      visits descends entry.1 entry.2 := by
  induction forest with
  | nil => exact fun _ => by rw [visitsOf, siblings, List.flatMap_nil]
  | cons node rest ih => exact fun number => by rw [visitsOf, siblings, List.flatMap_cons, ih]

theorem size_eq (node : Node α) : node.size = 1 + Node.sizes node.children := Node.count_eq _ node

/-- What is left to be visited, and the pointers to it. -/
def remaining (stack : List (List (Place × Node α))) : Nat :=
  (stack.map fun pointers => 1 + (pointers.map fun entry => 2 * entry.2.size).sum).sum

theorem sum_siblings (place : Place) (forest : List (Node α)) : ∀ number,
    ((siblings place number forest).map fun entry => 2 * entry.2.size).sum = 2 * Node.sizes forest := by
  induction forest with
  | nil => exact fun _ => rfl
  | cons node rest ih =>
    intro number
    have split : Node.sizes (node :: rest) = node.size + Node.sizes rest := by
      rw [Node.sizes, Node.countAll, Node.size, Node.sizes]
    rw [siblings, List.map_cons, List.sum_cons, ih, split, Nat.mul_add]

/-- **A walk with an explicit stack**: at the top the sibling that comes next. -/
def walk {σ : Type} (visit : σ → Place × Node α → σ) : List (List (Place × Node α)) → σ → σ
  | [], state => state
  | [] :: stack, state => walk visit stack state
  | (entry :: next) :: stack, state =>
    walk visit (if descends entry.2 then siblings entry.1 0 entry.2.children :: next :: stack else next :: stack)
      (visit state entry)
termination_by stack => remaining stack
decreasing_by
  · simp [remaining]
  · have positive := size_eq entry.2
    split
    · simp only [remaining, List.map_cons, List.sum_cons, sum_siblings]
      omega
    · simp only [remaining, List.map_cons, List.sum_cons]
      omega

/-- **A walk visits the nodes in document order.** -/
theorem walk_eq {σ : Type} (visit : σ → Place × Node α → σ) (stack : List (List (Place × Node α))) (state : σ) :
    walk descends visit stack state =
      (stack.flatMap fun pointers => pointers.flatMap fun entry => visits descends entry.1 entry.2).foldl visit state := by
  induction stack, state using walk.induct descends visit with
  | case1 state => rw [walk, List.flatMap_nil, List.foldl_nil]
  | case2 stack state ih => rw [walk, ih, List.flatMap_cons, List.flatMap_nil, List.nil_append]
  | case3 entry next stack state ih =>
    rw [walk, List.flatMap_cons, List.flatMap_cons, visits_eq]
    by_cases down : descends entry.2 = true
    · rw [dif_pos down] at ih
      rw [if_pos down, if_pos down, ih, List.flatMap_cons, List.flatMap_cons, visitsOf_eq, List.append_assoc,
        List.cons_append, List.foldl_cons]
    · rw [dif_neg down] at ih
      rw [if_neg down, if_neg down, ih, List.flatMap_cons, List.append_assoc, List.cons_append, List.nil_append,
        List.foldl_cons]

/-- A walk over the child nodes of a place. -/
theorem walk_siblings {σ : Type} (visit : σ → Place × Node α → σ) (place : Place) (forest : List (Node α)) (state : σ) :
    walk descends visit [siblings place 0 forest] state = (visitsOf descends place 0 forest).foldl visit state := by
  rw [walk_eq, List.flatMap_singleton, visitsOf_eq]

end Walks

/-! ### The number of visits -/

section Number

variable (descends counted : Node α → Bool)

mutual

theorem countP_visits_le (place : Place) : ∀ node : Node α,
    (visits descends place node).countP (fun entry => counted entry.2) ≤ node.count counted
  | .element ns name attributes children => by
    rw [visits, Node.count, List.countP_cons]
    have below := countP_visitsOf_le place children 0
    cases counted (.element ns name attributes children) <;> split <;> simp <;> omega
  | .text content => by
    rw [visits, Node.count, List.countP_singleton]
    cases counted (.text content) <;> simp
  | .other content => by
    rw [visits, Node.count, List.countP_singleton]
    cases counted (.other content) <;> simp

theorem countP_visitsOf_le (place : Place) : ∀ (forest : List (Node α)) (number : Nat),
    (visitsOf descends place number forest).countP (fun entry => counted entry.2) ≤ Node.countAll counted forest
  | [], number => by rw [visitsOf, List.countP_nil]; exact Nat.zero_le _
  | node :: rest, number => by
    rw [visitsOf, Node.countAll, List.countP_append]
    exact Nat.add_le_add (countP_visits_le (place ++ [number]) node) (countP_visitsOf_le place rest (number + 1))

end

/-- There is no more below a place than in the document. -/
theorem countAll_childrenAt_le (place : Place) : ∀ forest : List (Node α),
    Node.countAll counted (childrenAt forest place) ≤ Node.countAll counted forest := by
  induction place with
  | nil => exact fun _ => le_rfl
  | cons number place ih =>
    intro forest
    rw [childrenAt]
    refine le_trans (ih _) ?_
    cases found : forest[number]? with
    | none => exact Nat.zero_le _
    | some node =>
      have one := Node.count_le_countAll counted (List.mem_of_getElem? found)
      rw [Node.count_eq] at one
      exact le_trans (Nat.le_add_left _ _) one

end Number

end Dom
