/-
**The index as it is built in memory** (`mws/index/TmpIndex.{hpp,cpp}`).

A `TmpIndexNode` owns a `VectorMap` from encoded tokens to child nodes; a `TmpLeafNode` is one that
also has a formula id and a count of solutions. `insertData` walks down the map of every token but
the last, making nodes that are missing, and ends in a leaf.

* `WellFormed opened node` — what `insertData` keeps up when every formula is a complete prefix code:
  below a node with `opened > 0` open subterms there are only inner nodes until the count is used
  up, each with sorted, non-empty children, and at `0` there is a leaf without children.
* `insertAt_spec` — one insertion into a well-formed trie: it succeeds, keeps the trie well formed,
  returns the leaf of the formula and leaves every other leaf alone.
* `mem_leaves_iff`, `leaves_nodup` — the depth-first list of leaves is the set of stored formulas,
  each once.
* `TmpIndex.Built` — the indexes that calls of `insertData` and increments of `solutions` produce;
  `Built.wellFormed` and `Built.ids_nodup` are their invariants.
-/

import MathWebSearch.Types.EncodedToken
import MathWebSearch.Types.VectorMap

namespace MathWebSearch

open PrefixCode

/-- What a `TmpLeafNode` adds to a node: `id` (a `uint32_t`) and `solutions` (an `unsigned int`). -/
structure TmpLeaf where
  id : Nat
  solutions : Nat
deriving DecidableEq, Repr

/-- A node of the trie; `leaf` is `none` for a plain `TmpIndexNode`. -/
inductive TmpIndexNode where
  | mk (leaf : Option TmpLeaf) (children : List (EncodedToken × TmpIndexNode))

namespace TmpIndexNode

/-- The leaf part of the node. -/
def leaf : TmpIndexNode → Option TmpLeaf
  | mk leaf _ => leaf

/-- The map from tokens to child nodes. -/
def children : TmpIndexNode → VectorMap EncodedToken TmpIndexNode
  | mk _ children => children

@[simp] theorem leaf_mk (leaf : Option TmpLeaf) (children : VectorMap EncodedToken TmpIndexNode) :
    (mk leaf children).leaf = leaf := rfl

@[simp] theorem children_mk (leaf : Option TmpLeaf)
    (children : VectorMap EncodedToken TmpIndexNode) : (mk leaf children).children = children := rfl

/-- `new TmpIndexNode()`. -/
def newNode : TmpIndexNode := mk none []

/-- A `TmpLeafNode`; it has no children of its own. -/
def leafNode (leaf : TmpLeaf) : TmpIndexNode := mk (some leaf) []

/-- `children.find(token)`. -/
def child (node : TmpIndexNode) (token : EncodedToken) : Option TmpIndexNode :=
  VectorMap.find EncodedToken.compare node.children token

/-- `children[token] = node`. -/
def setChild (node : TmpIndexNode) (token : EncodedToken) (next : TmpIndexNode) : TmpIndexNode :=
  mk node.leaf (VectorMap.assign EncodedToken.compare node.children token next)

/-- The walk of `insertData` from `node`, with the static counter `nextId`. The last token leads to a
leaf, made with the next id when it is missing; reading the id of a node that is no `TmpLeafNode` is
undefined (`none`), and so is the empty formula, which the source asserts against. -/
def insertAt : EncodedFormula → TmpIndexNode → Nat → Option (TmpIndexNode × TmpLeaf × Nat)
  | [], _, _ => none
  | [token], node, nextId =>
    match node.child token with
    | some last =>
      match last.leaf with
      | some leaf => some (node, leaf, nextId)
      | none => none
    | none =>
      let id := (nextId + 1) % 2 ^ 32
      let leaf : TmpLeaf := ⟨id, 0⟩
      some (node.setChild token (leafNode leaf), leaf, id)
  | token :: rest, node, nextId => do
    let (next, leaf, nextId) ← insertAt rest ((node.child token).getD newNode) nextId
    return (node.setChild token next, leaf, nextId)

/-- `leaf->solutions++` for the leaf of a formula. -/
def addSolution : EncodedFormula → TmpIndexNode → TmpIndexNode
  | [], mk leaf children =>
    mk (leaf.map fun leaf => { leaf with solutions := (leaf.solutions + 1) % 2 ^ 32 }) children
  | token :: rest, node =>
    match node.child token with
    | some next => node.setChild token (addSolution rest next)
    | none => node

/-- The leaf a formula leads to. -/
def leafAt : EncodedFormula → TmpIndexNode → Option TmpLeaf
  | [], node => node.leaf
  | token :: rest, node => (node.child token).bind (leafAt rest)

mutual

/-- The leaves below a node with their formulas, depth first in the order of the children. -/
def leaves : TmpIndexNode → List (EncodedFormula × TmpLeaf)
  | mk leaf children => (leaf.toList.map fun leaf => ([], leaf)) ++ leavesOf children

/-- The leaves below a list of children. -/
def leavesOf : List (EncodedToken × TmpIndexNode) → List (EncodedFormula × TmpLeaf)
  | [] => []
  | (token, node) :: rest => ((leaves node).map fun entry => (token :: entry.1, entry.2)) ++ leavesOf rest

end

mutual

/-- The number of edges on the longest way down. -/
def height : TmpIndexNode → Nat
  | mk _ children => heightOf children

/-- One more than the height of the highest child. -/
def heightOf : List (EncodedToken × TmpIndexNode) → Nat
  | [] => 0
  | (_, node) :: rest => max (height node + 1) (heightOf rest)

end

/-- Induction over the trie: a node after all of its children. -/
@[induction_eliminator]
theorem induction {motive : TmpIndexNode → Prop}
    (mk : ∀ leaf children, (∀ entry ∈ children, motive entry.2) → motive (mk leaf children))
    (node : TmpIndexNode) : motive node :=
  @TmpIndexNode.rec motive (fun children => ∀ entry ∈ children, motive entry.2)
    (fun entry => motive entry.2) mk (fun _ member => nomatch member)
    (fun head rest ihHead ihRest entry member => by
      rcases List.mem_cons.mp member with rfl | member
      · exact ihHead
      · exact ihRest entry member)
    (fun _ _ ih => ih) node

theorem leavesOf_eq_flatMap (children : List (EncodedToken × TmpIndexNode)) :
    leavesOf children = children.flatMap fun entry =>
      (leaves entry.2).map fun below => (entry.1 :: below.1, below.2) := by
  induction children with
  | nil => rfl
  | cons entry rest ih => rw [leavesOf, ih, List.flatMap_cons]

theorem height_lt {children : List (EncodedToken × TmpIndexNode)}
    {entry : EncodedToken × TmpIndexNode} (member : entry ∈ children) :
    entry.2.height < heightOf children := by
  induction children with
  | nil => cases member
  | cons head rest ih =>
    rw [heightOf]
    rcases List.mem_cons.mp member with rfl | member
    · omega
    · have := ih member
      omega

/-! ### Well-formed tries -/

/-- **The shape of a trie of complete prefix codes**, by the number of subterms that are open at the
node. -/
inductive WellFormed : Nat → TmpIndexNode → Prop
  | leaf (leaf : TmpLeaf) : WellFormed 0 (leafNode leaf)
  | inner {opened : Nat} {children : VectorMap EncodedToken TmpIndexNode} :
      children ≠ [] → VectorMap.Sorted EncodedToken.compare children →
      (∀ entry ∈ children, WellFormed (opened + entry.1.arity) entry.2) →
      WellFormed (opened + 1) (mk none children)

namespace WellFormed

variable {opened : Nat} {node : TmpIndexNode}

theorem eq_leafNode (shape : WellFormed 0 node) : ∃ leaf, node = leafNode leaf := by
  cases shape with
  | leaf leaf => exact ⟨leaf, rfl⟩

theorem leaf_eq_none (shape : WellFormed (opened + 1) node) : node.leaf = none := by
  cases shape with
  | inner => rfl

theorem children_ne_nil (shape : WellFormed (opened + 1) node) : node.children ≠ [] := by
  cases shape with
  | inner nonempty => exact nonempty

theorem sorted (shape : WellFormed opened node) :
    VectorMap.Sorted EncodedToken.compare node.children := by
  cases shape with
  | leaf => exact List.Pairwise.nil
  | inner _ sorted => exact sorted

theorem child_of_mem (shape : WellFormed opened node) {entry : EncodedToken × TmpIndexNode}
    (member : entry ∈ node.children) : node.child entry.1 = some entry.2 :=
  (VectorMap.find_eq_some_iff shape.sorted).mpr member

theorem entry (shape : WellFormed (opened + 1) node) {entry : EncodedToken × TmpIndexNode}
    (member : entry ∈ node.children) : WellFormed (opened + entry.1.arity) entry.2 := by
  cases shape with
  | inner _ _ below => exact below entry member

theorem child (shape : WellFormed (opened + 1) node) {token : EncodedToken} {next : TmpIndexNode}
    (found : node.child token = some next) : WellFormed (opened + token.arity) next :=
  shape.entry ((VectorMap.find_eq_some_iff shape.sorted).mp found)

end WellFormed

/-- The children of a node that is new or well formed are sorted. -/
theorem sorted_of_new_or {opened : Nat} {node : TmpIndexNode}
    (shape : node = newNode ∨ WellFormed opened node) :
    VectorMap.Sorted EncodedToken.compare node.children := by
  rcases shape with rfl | shape
  · exact List.Pairwise.nil
  · exact shape.sorted

theorem child_setChild {node : TmpIndexNode}
    (sorted : VectorMap.Sorted EncodedToken.compare node.children) (token token' : EncodedToken)
    (next : TmpIndexNode) :
    (node.setChild token next).child token' =
      if token' = token then some next else node.child token' :=
  VectorMap.find_assign sorted token token' next

/-- Putting a well-formed node below a token keeps a new or well-formed node well formed. -/
theorem wellFormed_setChild {opened : Nat} {node : TmpIndexNode}
    (shape : node = newNode ∨ WellFormed (opened + 1) node) {token : EncodedToken}
    {next : TmpIndexNode} (below : WellFormed (opened + token.arity) next) :
    WellFormed (opened + 1) (node.setChild token next) := by
  have sorted := sorted_of_new_or shape
  have noLeaf : node.leaf = none := by
    rcases shape with rfl | shape
    · rfl
    · exact shape.leaf_eq_none
  rw [setChild, noLeaf]
  refine .inner (fun empty => ?_) (sorted.assign token next) fun entry member => ?_
  · have member := (VectorMap.mem_assign sorted token next (token, next)).mpr (Or.inl rfl)
    rw [empty] at member
    cases member
  · rcases (VectorMap.mem_assign sorted token next entry).mp member with rfl | ⟨member, _⟩
    · exact below
    · rcases shape with rfl | shape
      · cases member
      · exact shape.entry member

theorem child_newNode (token : EncodedToken) : newNode.child token = none := rfl

theorem leafAt_newNode (path : EncodedFormula) : leafAt path newNode = none := by
  cases path with
  | nil => rfl
  | cons token rest => rw [leafAt, child_newNode, Option.bind_none]

theorem leafAt_leafNode (leaf : TmpLeaf) (path : EncodedFormula) :
    leafAt path (leafNode leaf) = if path = [] then some leaf else none := by
  cases path with
  | nil => rfl
  | cons token rest =>
    rw [if_neg (by simp), leafAt, show (leafNode leaf).child token = none from rfl, Option.bind_none]

/-- The leaves below a token are those of its child; a missing child counts as a new node. -/
theorem leafAt_cons (token : EncodedToken) (rest : EncodedFormula) (node : TmpIndexNode) :
    leafAt (token :: rest) node = leafAt rest ((node.child token).getD newNode) := by
  rw [leafAt]
  cases node.child token with
  | none => rw [Option.bind_none, Option.getD_none, leafAt_newNode]
  | some next => rfl

/-- A change of one leaf below a token is a change of one leaf of the node. -/
theorem leafAt_setChild {node next : TmpIndexNode} {token : EncodedToken} {rest : EncodedFormula}
    {leaf : TmpLeaf} (sorted : VectorMap.Sorted EncodedToken.compare node.children)
    (below : ∀ path, leafAt path next =
      if path = rest then some leaf else leafAt path ((node.child token).getD newNode)) :
    ∀ path, leafAt path (node.setChild token next) =
      if path = token :: rest then some leaf else leafAt path node := by
  intro path
  cases path with
  | nil => rw [if_neg (by simp)]; rfl
  | cons token' rest' =>
    rw [leafAt, child_setChild sorted]
    by_cases same : token' = token
    · subst same
      rw [if_pos rfl, Option.bind_some, below, leafAt_cons]
      simp
    · rw [if_neg same, if_neg (by simp [same]), leafAt]

/-! ### One insertion -/

/-- What an insertion has done: the leaf is the one that was there, or a new one with the next id. -/
def Allocated (before : Option TmpLeaf) (leaf : TmpLeaf) (nextId nextId' : Nat) : Prop :=
  (before = some leaf ∧ nextId' = nextId) ∨
    (before = none ∧ leaf = ⟨nextId', 0⟩ ∧ nextId' = (nextId + 1) % 2 ^ 32)

/-- Where more tokens follow, the child that the walk goes into is an inner node, present or new. -/
theorem inner_of_closes {opened : Nat} {node : TmpIndexNode} (shape : node = newNode ∨ WellFormed (opened + 1) node)
    {token second : EncodedToken} {rest : EncodedFormula}
    (closes : Closes EncodedToken.arity (opened + token.arity) (second :: rest)) :
    ∃ count, opened + token.arity = count + 1 ∧
      ((node.child token).getD newNode = newNode ∨ WellFormed (count + 1) ((node.child token).getD newNode)) := by
  obtain ⟨count, countEq⟩ : ∃ count, opened + token.arity = count + 1 :=
    Nat.exists_eq_succ_of_ne_zero fun zero => by rw [zero] at closes; exact closes.elim
  refine ⟨count, countEq, ?_⟩
  cases found : node.child token with
  | none => exact Or.inl rfl
  | some next =>
    rcases shape with rfl | shape
    · cases found
    · exact Or.inr (countEq ▸ shape.child found)

/-- **One insertion.** In a new or well-formed node, `insertAt` of a word that closes the open
subterms succeeds, keeps the node well formed, returns the leaf of the word and changes no other. -/
theorem insertAt_spec (formula : EncodedFormula) : ∀ {opened : Nat} {node : TmpIndexNode} (nextId : Nat),
    Closes EncodedToken.arity (opened + 1) formula →
    (node = newNode ∨ WellFormed (opened + 1) node) →
    ∃ node' leaf nextId', insertAt formula node nextId = some (node', leaf, nextId') ∧
      WellFormed (opened + 1) node' ∧
      (∀ path, leafAt path node' = if path = formula then some leaf else leafAt path node) ∧
      Allocated (leafAt formula node) leaf nextId nextId' := by
  induction formula with
  | nil => intro opened node nextId closes; exact (not_closes_nil closes).elim
  | cons token rest ih =>
    intro opened node nextId closes shape
    have sorted := sorted_of_new_or shape
    rw [closes_cons] at closes
    cases rest with
    | nil =>
      have closed : opened + token.arity = 0 := by
        cases count : opened + token.arity with
        | zero => rfl
        | succ => rw [count] at closes; exact (not_closes_nil closes).elim
      cases found : node.child token with
      | none =>
        refine ⟨_, _, _, by rw [insertAt, found], ?_, ?_, Or.inr ⟨?_, rfl, rfl⟩⟩
        · exact wellFormed_setChild shape (closed ▸ .leaf _)
        · refine leafAt_setChild sorted fun path => ?_
          rw [found, Option.getD_none, leafAt_newNode, leafAt_leafNode]
        · rw [leafAt_cons, found, Option.getD_none, leafAt_newNode]
      | some last =>
        rcases shape with rfl | shape
        · cases found
        · obtain ⟨leaf, rfl⟩ := (closed ▸ shape.child found).eq_leafNode
          have stored : leafAt [token] node = some leaf := by rw [leafAt, found]; rfl
          refine ⟨node, leaf, nextId, by rw [insertAt, found]; rfl, shape, ?_, Or.inl ⟨stored, rfl⟩⟩
          intro path
          by_cases same : path = [token]
          · rw [if_pos same, same, stored]
          · rw [if_neg same]
    | cons second rest =>
      obtain ⟨count, countEq, shape'⟩ := inner_of_closes shape closes
      rw [countEq] at closes
      obtain ⟨next, leaf, nextId', inserted, wellFormed, below, allocated⟩ := ih nextId closes shape'
      refine ⟨node.setChild token next, leaf, nextId', ?_, ?_, leafAt_setChild sorted below, ?_⟩
      · rw [insertAt, inserted]
        · rfl
        · simp
      · exact wellFormed_setChild shape (countEq ▸ wellFormed)
      · rw [leafAt_cons]
        exact allocated

/-- **One more solution**: the leaf of a stored formula counts one more, nothing else changes. -/
theorem addSolution_spec (formula : EncodedFormula) : ∀ {opened : Nat} {node : TmpIndexNode} {leaf : TmpLeaf},
    WellFormed opened node → leafAt formula node = some leaf →
    WellFormed opened (addSolution formula node) ∧
      ∀ path, leafAt path (addSolution formula node) =
        if path = formula then some { leaf with solutions := (leaf.solutions + 1) % 2 ^ 32 }
        else leafAt path node := by
  induction formula with
  | nil =>
    intro opened node leaf shape stored
    cases shape with
    | leaf leaf' =>
      obtain rfl : leaf' = leaf := Option.some.inj stored
      refine ⟨.leaf _, fun path => ?_⟩
      rw [show addSolution [] (leafNode leaf') = leafNode { leaf' with solutions := _ } from rfl,
        leafAt_leafNode, leafAt_leafNode]
      split <;> rfl
    | inner => cases stored
  | cons token rest ih =>
    intro opened node leaf shape stored
    cases found : node.child token with
    | none => rw [leafAt, found] at stored; cases stored
    | some next =>
      rw [leafAt, found, Option.bind_some] at stored
      cases opened with
      | zero => obtain ⟨leaf', rfl⟩ := shape.eq_leafNode; cases found
      | succ opened =>
        obtain ⟨wellFormed, below⟩ := ih (shape.child found) stored
        rw [addSolution, found]
        refine ⟨wellFormed_setChild (Or.inr shape) wellFormed, ?_⟩
        refine leafAt_setChild shape.sorted fun path => ?_
        rw [below, found, Option.getD_some]

/-! ### The list of leaves -/

theorem leaves_inner {children : VectorMap EncodedToken TmpIndexNode} :
    leaves (mk none children) = leavesOf children := by
  rw [leaves, Option.toList_none, List.map_nil, List.nil_append]

theorem leaves_leafNode (leaf : TmpLeaf) : leaves (leafNode leaf) = [([], leaf)] := rfl

theorem mem_leavesOf {children : VectorMap EncodedToken TmpIndexNode} {path : EncodedFormula}
    {leaf : TmpLeaf} :
    (path, leaf) ∈ leavesOf children ↔ ∃ token next rest, (token, next) ∈ children ∧
      (rest, leaf) ∈ leaves next ∧ path = token :: rest := by
  rw [leavesOf_eq_flatMap, List.mem_flatMap]
  constructor
  · rintro ⟨⟨token, next⟩, member, inside⟩
    obtain ⟨⟨rest, leaf'⟩, below, same⟩ := List.mem_map.mp inside
    simp only [Prod.mk.injEq] at same
    obtain ⟨rfl, rfl⟩ := same
    exact ⟨token, next, rest, member, below, rfl⟩
  · rintro ⟨token, next, rest, member, below, rfl⟩
    exact ⟨(token, next), member, List.mem_map.mpr ⟨(rest, leaf), below, rfl⟩⟩

/-- **The list of leaves is the set of stored formulas.** -/
theorem mem_leaves_iff {opened : Nat} {node : TmpIndexNode} (shape : WellFormed opened node)
    {path : EncodedFormula} {leaf : TmpLeaf} :
    (path, leaf) ∈ leaves node ↔ leafAt path node = some leaf := by
  induction shape generalizing path with
  | leaf leaf' =>
    rw [leaves_leafNode, leafAt_leafNode, List.mem_singleton, Prod.mk.injEq]
    by_cases empty : path = []
    · simp [empty, eq_comm]
    · simp [empty]
  | @inner opened children nonempty sorted below ih =>
    rw [leaves_inner, mem_leavesOf]
    cases path with
    | nil =>
      constructor
      · rintro ⟨_, _, _, _, _, impossible⟩
        cases impossible
      · intro impossible
        cases impossible
    | cons token rest =>
      rw [leafAt, Option.bind_eq_some_iff]
      constructor
      · rintro ⟨token', next, rest', member, inside, same⟩
        obtain ⟨rfl, rfl⟩ := List.cons.inj same
        exact ⟨next, (VectorMap.find_eq_some_iff sorted).mpr member, (ih _ member).mp inside⟩
      · rintro ⟨next, found, stored⟩
        have member := (VectorMap.find_eq_some_iff sorted).mp found
        exact ⟨token, next, rest, member, (ih _ member).mpr stored, rfl⟩

/-- Every stored formula closes what is open at the node. -/
theorem closes_of_mem_leaves {opened : Nat} {node : TmpIndexNode} (shape : WellFormed opened node)
    {path : EncodedFormula} {leaf : TmpLeaf} (member : (path, leaf) ∈ leaves node) :
    Closes EncodedToken.arity opened path := by
  induction shape generalizing path with
  | leaf leaf' =>
    rw [leaves_leafNode, List.mem_singleton, Prod.mk.injEq] at member
    rw [member.1]
    trivial
  | inner nonempty sorted below ih =>
    rw [leaves_inner, mem_leavesOf] at member
    obtain ⟨token, next, rest, inside, belowMember, rfl⟩ := member
    exact ih _ inside belowMember

/-- Words below children with different tokens are different. -/
theorem nodup_branches {β : Type} {children : List (EncodedToken × TmpIndexNode)}
    (keys : (children.map Prod.fst).Nodup)
    {words : EncodedToken × TmpIndexNode → List (EncodedFormula × β)}
    (below : ∀ entry ∈ children, ((words entry).map Prod.fst).Nodup) :
    ((children.flatMap fun entry =>
      (words entry).map fun word => (entry.1 :: word.1, word.2)).map Prod.fst).Nodup := by
  rw [List.map_flatMap]
  refine List.nodup_flatMap.mpr ⟨fun entry member => ?_, ?_⟩
  · rw [List.map_map]
    have nodup := (below entry member).map (@List.cons_injective _ entry.1)
    rw [List.map_map] at nodup
    exact nodup
  · refine (List.pairwise_map.mp keys).imp fun {first second} different => ?_
    rw [Function.onFun, List.disjoint_left]
    intro path inFirst inSecond
    obtain ⟨_, inside, rfl⟩ := List.mem_map.mp inFirst
    obtain ⟨_, inside', same⟩ := List.mem_map.mp inSecond
    obtain ⟨_, _, rfl⟩ := List.mem_map.mp inside
    obtain ⟨_, _, rfl⟩ := List.mem_map.mp inside'
    exact different (List.cons.inj same).1.symm

/-- Every stored formula is listed once. -/
theorem leaves_nodup {opened : Nat} {node : TmpIndexNode} (shape : WellFormed opened node) :
    ((leaves node).map Prod.fst).Nodup := by
  induction shape with
  | leaf leaf => exact List.nodup_singleton _
  | @inner opened children nonempty sorted below ih =>
    rw [leaves_inner, leavesOf_eq_flatMap]
    exact nodup_branches sorted.nodup ih

/-- There is a leaf below every well-formed node. -/
theorem leaves_ne_nil {opened : Nat} {node : TmpIndexNode} (shape : WellFormed opened node) :
    leaves node ≠ [] := by
  induction shape with
  | leaf leaf => rw [leaves_leafNode]; simp
  | @inner opened children nonempty sorted below ih =>
    obtain ⟨entry, rest, rfl⟩ := List.exists_cons_of_ne_nil nonempty
    rw [leaves_inner, leavesOf]
    simp [ih entry List.mem_cons_self]

/-- A change of one stored leaf, read on the lists of leaves. -/
theorem leaves_perm {opened' : Nat} {node node' : TmpIndexNode} {formula : EncodedFormula}
    {leaf : TmpLeaf} (before : ∀ path leaf, (path, leaf) ∈ leaves node ↔ leafAt path node = some leaf)
    (nodupBefore : ((leaves node).map Prod.fst).Nodup) (after : WellFormed opened' node')
    (change : ∀ path, leafAt path node' = if path = formula then some leaf else leafAt path node) :
    (leaves node').Perm
      ((formula, leaf) :: (leaves node).filter fun entry => decide (entry.1 ≠ formula)) := by
  have nodupAfter := (leaves_nodup after).of_map
  have nodupOld := nodupBefore.of_map
  refine (List.perm_ext_iff_of_nodup nodupAfter ?_).mpr ?_
  · refine List.nodup_cons.mpr ⟨?_, nodupOld.filter _⟩
    simp
  · rintro ⟨path, leaf'⟩
    rw [mem_leaves_iff after, change, List.mem_cons, List.mem_filter, before, Prod.mk.injEq]
    by_cases same : path = formula
    · simp [same, eq_comm]
    · simp [same]

end TmpIndexNode

/-! ### The index -/

/-- `TmpIndex`, with the static counter `TmpLeafNode::nextId` it draws its leaf ids from. -/
structure TmpIndex where
  root : TmpIndexNode
  nextId : Nat

namespace TmpIndex

open TmpIndexNode

/-- `new TmpIndex()`, the counter standing at `nextId`. -/
def empty (nextId : Nat) : TmpIndex := ⟨newNode, nextId⟩

/-- `insertData`: the index and the leaf of the formula. -/
def insertData (index : TmpIndex) (encodedFormula : EncodedFormula) : Option (TmpIndex × TmpLeaf) := do
  let (root, leaf, nextId) ← insertAt encodedFormula index.root index.nextId
  return (⟨root, nextId⟩, leaf)

/-- `leaf->solutions++`, as `IndexBuilder` does to the leaf of a formula. -/
def addSolution (index : TmpIndex) (encodedFormula : EncodedFormula) : TmpIndex :=
  { index with root := TmpIndexNode.addSolution encodedFormula index.root }

/-- The leaves with their formulas, depth first. -/
def leaves (index : TmpIndex) : List (EncodedFormula × TmpLeaf) := index.root.leaves

/-- The leaf of a formula. -/
def leafAt (index : TmpIndex) (formula : EncodedFormula) : Option TmpLeaf :=
  TmpIndexNode.leafAt formula index.root

/-- No formula has been inserted. -/
def IsEmpty (index : TmpIndex) : Prop := index.root.children = []

/-- **The indexes that are built** from variable-free complete prefix codes, in any order of
`insertData` and `solutions++`. -/
inductive Built : TmpIndex → Prop
  | empty (nextId : Nat) : Built (TmpIndex.empty nextId)
  | insertData {index index' : TmpIndex} {formula : EncodedFormula} {leaf : TmpLeaf} :
      Built index → formula.IsPrefixCode → formula.VariableFree →
      index.insertData formula = some (index', leaf) → Built index'
  | addSolution {index : TmpIndex} {formula : EncodedFormula} {leaf : TmpLeaf} :
      Built index → index.leafAt formula = some leaf → Built (index.addSolution formula)

/-- The root is new, or a well-formed trie with one open subterm. -/
def Shaped (index : TmpIndex) : Prop := index.root = newNode ∨ WellFormed 1 index.root

theorem Shaped.mem_leaves {index : TmpIndex} (shaped : index.Shaped) {path : EncodedFormula}
    {leaf : TmpLeaf} : (path, leaf) ∈ index.leaves ↔ index.leafAt path = some leaf := by
  rcases shaped with new | shape
  · rw [TmpIndex.leaves, TmpIndex.leafAt, new, leafAt_newNode]
    simp [newNode, TmpIndexNode.leaves, TmpIndexNode.leavesOf]
  · exact mem_leaves_iff shape

theorem Shaped.leaves_nodup {index : TmpIndex} (shaped : index.Shaped) :
    (index.leaves.map Prod.fst).Nodup := by
  rcases shaped with new | shape
  · rw [TmpIndex.leaves, new]
    simp [newNode, TmpIndexNode.leaves, TmpIndexNode.leavesOf]
  · exact TmpIndexNode.leaves_nodup shape

/-- **`insertData` of a complete prefix code**, on the whole index. -/
theorem insertData_spec {index : TmpIndex} (shaped : index.Shaped) {formula : EncodedFormula}
    (complete : formula.IsPrefixCode) :
    ∃ index' leaf, index.insertData formula = some (index', leaf) ∧ WellFormed 1 index'.root ∧
      (∀ path, index'.leafAt path = if path = formula then some leaf else index.leafAt path) ∧
      Allocated (index.leafAt formula) leaf index.nextId index'.nextId := by
  obtain ⟨root, leaf, nextId, inserted, shape, change, allocated⟩ :=
    insertAt_spec formula index.nextId (EncodedFormula.isPrefixCode_iff.mp complete) shaped
  exact ⟨⟨root, nextId⟩, leaf, by rw [insertData, inserted]; rfl, shape, change, allocated⟩

/-- What is known of a result of `insertData`. -/
theorem insertData_inv {index index' : TmpIndex} (shaped : index.Shaped) {formula : EncodedFormula}
    (complete : formula.IsPrefixCode) {leaf : TmpLeaf}
    (inserted : index.insertData formula = some (index', leaf)) :
    WellFormed 1 index'.root ∧
      (∀ path, index'.leafAt path = if path = formula then some leaf else index.leafAt path) ∧
      Allocated (index.leafAt formula) leaf index.nextId index'.nextId := by
  obtain ⟨index'', leaf', inserted', rest⟩ := insertData_spec shaped complete
  rw [inserted] at inserted'
  cases inserted'
  exact rest

theorem addSolution_inv {index : TmpIndex} (shaped : index.Shaped) {formula : EncodedFormula}
    {leaf : TmpLeaf} (stored : index.leafAt formula = some leaf) :
    WellFormed 1 (index.addSolution formula).root ∧
      ∀ path, (index.addSolution formula).leafAt path =
        if path = formula then some { leaf with solutions := (leaf.solutions + 1) % 2 ^ 32 }
        else index.leafAt path := by
  rcases shaped with new | shape
  · rw [TmpIndex.leafAt, new, leafAt_newNode] at stored
    cases stored
  · exact addSolution_spec formula shape stored

/-- A stored leaf and the others make up the list of leaves. -/
theorem Shaped.leaves_perm {index : TmpIndex} (shaped : index.Shaped) {formula : EncodedFormula}
    {leaf : TmpLeaf} (stored : index.leafAt formula = some leaf) :
    index.leaves.Perm
      ((formula, leaf) :: index.leaves.filter fun entry => decide (entry.1 ≠ formula)) := by
  rcases shaped with new | shape
  · rw [TmpIndex.leafAt, new, leafAt_newNode] at stored
    cases stored
  · refine TmpIndexNode.leaves_perm (fun _ _ => mem_leaves_iff shape) (TmpIndexNode.leaves_nodup shape)
      shape fun path => ?_
    by_cases same : path = formula
    · rw [if_pos same, same]
      exact stored
    · rw [if_neg same]

/-- A change of one leaf, read on the lists of leaves. -/
theorem Shaped.leaves_perm_change {index index' : TmpIndex} (shaped : index.Shaped)
    (shape' : WellFormed 1 index'.root) {formula : EncodedFormula} {leaf : TmpLeaf}
    (change : ∀ path, index'.leafAt path = if path = formula then some leaf else index.leafAt path) :
    index'.leaves.Perm
      ((formula, leaf) :: index.leaves.filter fun entry => decide (entry.1 ≠ formula)) :=
  TmpIndexNode.leaves_perm (fun _ _ => shaped.mem_leaves) shaped.leaves_nodup shape' change

/-- Without a leaf for the formula, the others are all there are. -/
theorem Shaped.filter_eq_self {index : TmpIndex} (shaped : index.Shaped) {formula : EncodedFormula}
    (absent : index.leafAt formula = none) :
    (index.leaves.filter fun entry => decide (entry.1 ≠ formula)) = index.leaves := by
  refine List.filter_eq_self.mpr fun entry member => decide_eq_true fun same => ?_
  have stored := shaped.mem_leaves.mp member
  rw [same, absent] at stored
  cases stored

/-- **The indexes that grow** by `insertData` of the given complete prefix codes, in this order, and by `solutions++`
in between. -/
inductive Grown : List EncodedFormula → TmpIndex → Prop
  | empty (nextId : Nat) : Grown [] (TmpIndex.empty nextId)
  | insertData {formulas : List EncodedFormula} {index index' : TmpIndex} {formula : EncodedFormula} {leaf : TmpLeaf} :
      Grown formulas index → formula.IsPrefixCode → index.insertData formula = some (index', leaf) →
      Grown (formulas ++ [formula]) index'
  | addSolution {formulas : List EncodedFormula} {index : TmpIndex} {formula : EncodedFormula} {leaf : TmpLeaf} :
      Grown formulas index → index.leafAt formula = some leaf → Grown formulas (index.addSolution formula)

namespace Grown

variable {formulas : List EncodedFormula} {index : TmpIndex}

theorem shaped (grown : Grown formulas index) : index.Shaped := by
  induction grown with
  | empty nextId => exact Or.inl rfl
  | insertData _ complete inserted ih => exact Or.inr (insertData_inv ih complete inserted).1
  | addSolution _ stored ih => exact Or.inr (addSolution_inv ih stored).1

/-- **Every formula that was inserted has a leaf, and no other.** -/
theorem leafAt_isSome (grown : Grown formulas index) (path : EncodedFormula) :
    (index.leafAt path).isSome ↔ path ∈ formulas := by
  induction grown with
  | empty nextId =>
    rw [TmpIndex.leafAt, TmpIndex.empty, leafAt_newNode]
    simp
  | @insertData formulas index index' formula leaf before complete inserted ih =>
    rw [(insertData_inv before.shaped complete inserted).2.1, List.mem_append, List.mem_singleton, ← ih]
    by_cases same : path = formula
    · simp [same]
    · simp [same]
  | @addSolution formulas index formula leaf before stored ih =>
    rw [(addSolution_inv before.shaped stored).2, ← ih]
    by_cases same : path = formula
    · simp [same, stored]
    · simp [same]

/-- The ids a counter standing at `start` gives out. -/
def idsFrom (start count : Nat) : List Nat := (List.range count).map fun k => (start + k + 1) % 2 ^ 32

theorem idsFrom_succ (start count : Nat) :
    idsFrom start (count + 1) = idsFrom start count ++ [(start + count + 1) % 2 ^ 32] := by
  rw [idsFrom, List.range_succ, List.map_append]
  rfl

/-- **The leaf ids are the values the counter has taken**, one for each leaf. -/
theorem ids_perm (grown : Grown formulas index) : ∃ start,
    index.nextId % 2 ^ 32 = (start + index.leaves.length) % 2 ^ 32 ∧
      (index.leaves.map fun entry => entry.2.id).Perm (idsFrom start index.leaves.length) := by
  induction grown with
  | empty nextId => exact ⟨nextId, rfl, .refl _⟩
  | @insertData _ index index' formula leaf before complete inserted ih =>
    obtain ⟨start, counter, ids⟩ := ih
    obtain ⟨shape, change, allocated⟩ := insertData_inv before.shaped complete inserted
    have after := before.shaped.leaves_perm_change shape change
    refine ⟨start, ?_⟩
    rcases allocated with ⟨stored, same⟩ | ⟨absent, fresh, next⟩
    · have perm := after.trans (before.shaped.leaves_perm stored).symm
      rw [same, perm.length_eq]
      exact ⟨counter, (perm.map _).trans ids⟩
    · rw [before.shaped.filter_eq_self absent] at after
      have idEq : leaf.id = (start + index.leaves.length + 1) % 2 ^ 32 := by
        rw [fresh]
        show index'.nextId = _
        omega
      rw [after.length_eq, List.length_cons, idsFrom_succ]
      refine ⟨by rw [next]; omega, (after.map _).trans ?_⟩
      rw [List.map_cons, idEq]
      exact (ids.cons _).trans (List.perm_append_singleton _ _).symm
  | @addSolution _ index formula leaf before stored ih =>
    obtain ⟨start, counter, ids⟩ := ih
    obtain ⟨shape, change⟩ := addSolution_inv before.shaped stored
    have after := before.shaped.leaves_perm_change shape change
    have now := before.shaped.leaves_perm stored
    have length : (index.addSolution formula).leaves.length = index.leaves.length :=
      after.length_eq.trans now.length_eq.symm
    refine ⟨start, ?_⟩
    rw [length]
    refine ⟨counter, (after.map _).trans (.trans ?_ ids)⟩
    exact (now.map fun entry => entry.2.id).symm

/-- **Leaf ids are pairwise distinct** until the 32-bit counter has gone round. -/
theorem ids_nodup (grown : Grown formulas index) (few : index.leaves.length ≤ 2 ^ 32) :
    (index.leaves.map fun entry => entry.2.id).Nodup := by
  obtain ⟨start, _, ids⟩ := grown.ids_perm
  refine ids.nodup_iff.mpr (List.Nodup.map_on ?_ List.nodup_range)
  intro first inFirst second inSecond same
  rw [List.mem_range] at inFirst inSecond
  omega

theorem id_lt (grown : Grown formulas index) : ∀ entry ∈ index.leaves, entry.2.id < 2 ^ 32 := by
  intro entry member
  obtain ⟨start, _, ids⟩ := grown.ids_perm
  have inside := ids.subset (List.mem_map_of_mem member)
  obtain ⟨count, _, same⟩ := List.mem_map.mp inside
  rw [← same]
  exact Nat.mod_lt _ (by decide)

end Grown

namespace Built

variable {index : TmpIndex}

theorem grown (built : index.Built) : ∃ formulas, Grown formulas index := by
  induction built with
  | empty nextId => exact ⟨[], .empty nextId⟩
  | insertData _ complete _ inserted ih => exact ih.imp' _ fun _ grown => .insertData grown complete inserted
  | addSolution _ stored ih => exact ih.imp fun _ grown => .addSolution grown stored

theorem shaped (built : index.Built) : index.Shaped := built.grown.elim fun _ grown => grown.shaped

/-- **A built index that is not empty is a well-formed trie.** -/
theorem wellFormed (built : index.Built) (nonempty : ¬ index.IsEmpty) : WellFormed 1 index.root := by
  rcases built.shaped with new | shape
  · exact absurd (by rw [IsEmpty, new]; rfl) nonempty
  · exact shape

/-- Every stored formula is a variable-free complete prefix code. -/
theorem stored (built : index.Built) {path : EncodedFormula} {leaf : TmpLeaf}
    (stored : index.leafAt path = some leaf) : path.IsPrefixCode ∧ path.VariableFree := by
  induction built generalizing leaf with
  | empty nextId =>
    rw [TmpIndex.leafAt, TmpIndex.empty, leafAt_newNode] at stored
    cases stored
  | @insertData index index' formula leaf' before complete variableFree inserted ih =>
    rw [(insertData_inv before.shaped complete inserted).2.1] at stored
    by_cases same : path = formula
    · rw [same]
      exact ⟨complete, variableFree⟩
    · rw [if_neg same] at stored
      exact ih stored
  | @addSolution index formula leaf' before storedBefore ih =>
    rw [(addSolution_inv before.shaped storedBefore).2] at stored
    by_cases same : path = formula
    · subst same
      exact ih storedBefore
    · rw [if_neg same] at stored
      exact ih stored

theorem ids_nodup (built : index.Built) (few : index.leaves.length ≤ 2 ^ 32) :
    (index.leaves.map fun entry => entry.2.id).Nodup := built.grown.elim fun _ grown => grown.ids_nodup few

theorem id_lt (built : index.Built) : ∀ entry ∈ index.leaves, entry.2.id < 2 ^ 32 :=
  built.grown.elim fun _ grown => grown.id_lt

end Built

/-! ### The index of a list of formulas -/

/-- One formula after the other. -/
def insertAll (index : TmpIndex) (formulas : List EncodedFormula) : TmpIndex :=
  formulas.foldl (fun index formula => ((index.insertData formula).map Prod.fst).getD index) index

theorem Built.insertAll {index : TmpIndex} (built : index.Built) {formulas : List EncodedFormula}
    (complete : ∀ formula ∈ formulas, formula.IsPrefixCode ∧ formula.VariableFree) :
    (index.insertAll formulas).Built ∧ (formulas ≠ [] → ¬ (index.insertAll formulas).IsEmpty) := by
  induction formulas using List.reverseRecOn with
  | nil => exact ⟨built, fun nonempty => absurd rfl nonempty⟩
  | append_singleton formulas last ih =>
    have before := (ih fun formula member => complete formula (List.mem_append_left _ member)).1
    obtain ⟨isCode, variableFree⟩ := complete last (by simp)
    obtain ⟨index', leaf, inserted, shape, _⟩ := insertData_spec before.shaped isCode
    have same : index.insertAll (formulas ++ [last]) = index' := by
      rw [TmpIndex.insertAll, List.foldl_append]
      show ((((index.insertAll formulas).insertData last).map Prod.fst).getD _) = index'
      rw [inserted]
      rfl
    rw [same]
    exact ⟨.insertData before isCode variableFree inserted, fun _ => shape.children_ne_nil⟩

end TmpIndex

end MathWebSearch
