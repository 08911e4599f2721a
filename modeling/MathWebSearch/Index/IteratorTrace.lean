/-
**What the index iterator does over a whole run** (`IndexIterator.hpp` on a `TmpIndex`).

From a node with `base + 1` open subterms the iterator visits, in depth-first order, every node at
which one more subterm is complete.

* `terms node opened` — the words that close `opened` subterms below a node, each with the node it
  leads to, in depth-first order; `leaves_eq_terms` splits the leaves of a node along them.
* `Sound` — a well-formed node below which every token is known to have some property.
* `traceBelow`, `traceOf` — the whole walk as a list: every `onPush` and `onPop`, and a `yield` for
  every node returned; `yields_traceBelow` says that the nodes returned are those of `terms`.
* `ValidStack`, `remaining` — the invariant of a suspended iterator, and the part of the walk that is
  still in front of it.
* `next_spec` — one call of `next` consumes exactly the part of `remaining` up to the next `yield`, or
  all of it, and then returns null with the list of iterators empty again.
-/

import MathWebSearch.Index.IndexIterator

namespace MathWebSearch

open TmpIndexNode PrefixCode

namespace TmpIndexNode

/-! ### The complete words below a node -/

mutual

/-- The words that close `opened` subterms below a node, with the nodes they lead to. -/
def terms : TmpIndexNode → Nat → List (EncodedFormula × TmpIndexNode)
  | mk leaf children, 0 => [([], mk leaf children)]
  | mk _ children, opened + 1 => termsOf children opened

/-- The words of `terms` that start with one of the children. -/
def termsOf : List (EncodedToken × TmpIndexNode) → Nat → List (EncodedFormula × TmpIndexNode)
  | [], _ => []
  | (token, node) :: rest, opened =>
    ((terms node (opened + token.arity)).map fun entry => (token :: entry.1, entry.2)) ++
      termsOf rest opened

end

/-- The node a word leads to. -/
def walk : EncodedFormula → TmpIndexNode → Option TmpIndexNode
  | [], node => some node
  | token :: rest, node => (node.child token).bind (walk rest)

@[simp] theorem terms_zero (node : TmpIndexNode) : node.terms 0 = [([], node)] := by
  cases node
  rw [terms]

@[simp] theorem terms_succ (node : TmpIndexNode) (opened : Nat) :
    node.terms (opened + 1) = termsOf node.children opened := by
  cases node
  rw [terms, children_mk]

theorem termsOf_eq_flatMap (children : List (EncodedToken × TmpIndexNode)) (opened : Nat) :
    termsOf children opened = children.flatMap fun entry =>
      (entry.2.terms (opened + entry.1.arity)).map fun below => (entry.1 :: below.1, below.2) := by
  induction children with
  | nil => rfl
  | cons entry rest ih => rw [termsOf, ih, List.flatMap_cons]

theorem walk_append (first second : EncodedFormula) (node : TmpIndexNode) :
    walk (first ++ second) node = (walk first node).bind (walk second) := by
  induction first generalizing node with
  | nil => rfl
  | cons token rest ih =>
    rw [List.cons_append, walk, walk, Option.bind_assoc]
    exact congrArg _ (funext ih)

theorem leafAt_eq_walk (path : EncodedFormula) (node : TmpIndexNode) :
    leafAt path node = (walk path node).bind leaf := by
  induction path generalizing node with
  | nil => rfl
  | cons token rest ih =>
    rw [leafAt, walk, Option.bind_assoc]
    exact congrArg _ (funext ih)

/-- A child of a node with one subterm open above `base + opened`. -/
theorem WellFormed.entryAbove {base opened : Nat} {node : TmpIndexNode}
    (shape : WellFormed (base + (opened + 1)) node) {entry : EncodedToken × TmpIndexNode}
    (member : entry ∈ node.children) : WellFormed (base + (opened + entry.1.arity)) entry.2 := by
  rw [← Nat.add_assoc] at shape ⊢
  exact shape.entry member

/-- **The terms below a well-formed node**: the words that close the open subterms and lead
somewhere. -/
theorem mem_terms_iff {base : Nat} {node : TmpIndexNode} : ∀ {opened : Nat},
    WellFormed (base + opened) node → ∀ {word : EncodedFormula} {last : TmpIndexNode},
      (word, last) ∈ node.terms opened ↔
        Closes EncodedToken.arity opened word ∧ walk word node = some last := by
  induction node with
  | mk leaf children ih =>
    intro opened shape word last
    cases opened with
    | zero =>
      rw [terms_zero, List.mem_singleton, Prod.mk.injEq, closes_zero]
      constructor
      · rintro ⟨rfl, rfl⟩
        exact ⟨rfl, rfl⟩
      · rintro ⟨rfl, reached⟩
        exact ⟨rfl, (Option.some.inj reached).symm⟩
    | succ opened =>
      rw [terms_succ, termsOf_eq_flatMap, List.mem_flatMap]
      constructor
      · rintro ⟨entry, member, inside⟩
        obtain ⟨⟨rest, last'⟩, stored, same⟩ := List.mem_map.mp inside
        obtain ⟨rfl, rfl⟩ := Prod.mk.inj same
        obtain ⟨closes, reached⟩ := (ih entry member (shape.entryAbove member)).mp stored
        refine ⟨closes, ?_⟩
        rw [walk, shape.child_of_mem member]
        exact reached
      · rintro ⟨closes, reached⟩
        obtain ⟨token, rest, rfl, closesRest⟩ := closes.exists_cons
        rw [walk, Option.bind_eq_some_iff] at reached
        obtain ⟨next, found, reached⟩ := reached
        have member := (VectorMap.find_eq_some_iff shape.sorted).mp found
        refine ⟨(token, next), member, List.mem_map.mpr ⟨(rest, last), ?_, rfl⟩⟩
        exact (ih _ member (shape.entryAbove member)).mpr ⟨closesRest, reached⟩

/-- Every word of `terms` is listed once. -/
theorem terms_nodup {base : Nat} {node : TmpIndexNode} : ∀ {opened : Nat},
    WellFormed (base + opened) node → ((node.terms opened).map Prod.fst).Nodup := by
  induction node with
  | mk leaf children ih =>
    intro opened shape
    cases opened with
    | zero =>
      rw [terms_zero]
      exact List.nodup_singleton _
    | succ opened =>
      rw [terms_succ, termsOf_eq_flatMap]
      exact nodup_branches shape.sorted.nodup fun entry member => ih entry member (shape.entryAbove member)

/-- Where the terms lead, only `base` subterms are left open. -/
theorem wellFormed_of_mem_terms {base : Nat} {node : TmpIndexNode} : ∀ {opened : Nat},
    WellFormed (base + opened) node → ∀ {word : EncodedFormula} {last : TmpIndexNode},
      (word, last) ∈ node.terms opened → WellFormed base last := by
  induction node with
  | mk leaf children ih =>
    intro opened shape word last inside
    cases opened with
    | zero =>
      rw [terms_zero, List.mem_singleton, Prod.mk.injEq] at inside
      rw [inside.2]
      exact shape
    | succ opened =>
      rw [terms_succ, termsOf_eq_flatMap, List.mem_flatMap] at inside
      obtain ⟨entry, member, inside⟩ := inside
      obtain ⟨⟨rest, last'⟩, stored, same⟩ := List.mem_map.mp inside
      obtain ⟨rfl, rfl⟩ := Prod.mk.inj same
      exact ih entry member (shape.entryAbove member) stored

/-- **The leaves of a node, along the terms below it.** -/
theorem leaves_eq_terms {base : Nat} {node : TmpIndexNode} : ∀ {opened : Nat},
    WellFormed (base + opened) node →
      leaves node = (node.terms opened).flatMap fun term =>
        (leaves term.2).map fun below => (term.1 ++ below.1, below.2) := by
  induction node with
  | mk leaf children ih =>
    intro opened shape
    cases opened with
    | zero => simp
    | succ opened =>
      have noLeaf := WellFormed.leaf_eq_none (Nat.add_assoc base opened 1 ▸ shape)
      rw [leaf_mk] at noLeaf
      subst noLeaf
      rw [leaves_inner, leavesOf_eq_flatMap, terms_succ, termsOf_eq_flatMap, List.flatMap_assoc]
      refine List.flatMap_congr fun entry member => ?_
      rw [ih entry member (shape.entryAbove member), List.map_flatMap, List.flatMap_map]
      refine List.flatMap_congr fun term _ => ?_
      rw [List.map_map]
      rfl

/-! ### Nodes with known tokens -/

/-- A well-formed node all of whose tokens are known to have a property. -/
structure Sound (known : EncodedToken → Prop) (opened : Nat) (node : TmpIndexNode) : Prop where
  shape : WellFormed opened node
  tokens : ∀ entry ∈ leaves node, ∀ token ∈ entry.1, known token

namespace Sound

variable {known : EncodedToken → Prop} {opened base : Nat} {node : TmpIndexNode}

theorem entry (sound : Sound known (opened + 1) node) {entry : EncodedToken × TmpIndexNode}
    (member : entry ∈ node.children) :
    known entry.1 ∧ Sound known (opened + entry.1.arity) entry.2 := by
  have shape := sound.shape.entry member
  have inside : ∀ leaf ∈ leaves entry.2, (entry.1 :: leaf.1, leaf.2) ∈ leaves node := by
    intro leaf below
    cases sound.shape with
    | inner _ _ _ =>
      rw [leaves_inner, leavesOf_eq_flatMap]
      exact List.mem_flatMap.mpr ⟨entry, member, List.mem_map.mpr ⟨leaf, below, rfl⟩⟩
  obtain ⟨leaf, below⟩ := List.exists_mem_of_ne_nil _ (leaves_ne_nil shape)
  refine ⟨sound.tokens _ (inside leaf below) _ List.mem_cons_self, shape, fun leaf below token among => ?_⟩
  exact sound.tokens _ (inside leaf below) _ (List.mem_cons_of_mem _ among)

theorem child (sound : Sound known (opened + 1) node) {token : EncodedToken} {next : TmpIndexNode}
    (found : node.child token = some next) : Sound known (opened + token.arity) next :=
  (sound.entry ((VectorMap.find_eq_some_iff sound.shape.sorted).mp found)).2

theorem term (sound : Sound known (base + 1) node) {term : EncodedFormula × TmpIndexNode}
    (member : term ∈ node.terms 1) : Sound known base term.2 := by
  refine ⟨wellFormed_of_mem_terms sound.shape member, fun leaf below token among => ?_⟩
  have inside : (term.1 ++ leaf.1, leaf.2) ∈ leaves node := by
    rw [leaves_eq_terms sound.shape]
    exact List.mem_flatMap.mpr ⟨term, member, List.mem_map.mpr ⟨leaf, below, rfl⟩⟩
  exact sound.tokens _ inside _ (List.mem_append_right _ among)

end Sound

end TmpIndexNode

/-! ### The walk of the iterator -/

/-- One item of the walk: a virtual call, or a return of `next` with the iterators it leaves behind. -/
inductive WalkItem where
  | call (event : IteratorEvent TmpIterator)
  | yield (stack : List TmpIterator) (node : TmpIndexNode)

mutual

/-- The walk below a node at which `opened` subterms are missing. -/
def traceBelow : TmpIndexNode → Nat → List TmpIterator → List WalkItem
  | mk leaf children, 0, stack => [.yield stack (mk leaf children)]
  | mk _ children, opened + 1, stack => traceOf children opened stack

/-- The walk along a vector of children, from the current one on. -/
def traceOf : TmpIterator → Nat → List TmpIterator → List WalkItem
  | [], _, _ => []
  | (token, node) :: rest, opened, stack =>
    .call (.onPush ((token, node) :: rest)) ::
      (traceBelow node (opened + token.arity) (((token, node) :: rest) :: stack) ++
        .call (.onPop ((token, node) :: rest)) :: traceOf rest opened stack)

end

@[simp] theorem traceBelow_zero (node : TmpIndexNode) (stack : List TmpIterator) :
    traceBelow node 0 stack = [.yield stack node] := by
  cases node
  rw [traceBelow]

@[simp] theorem traceBelow_succ (node : TmpIndexNode) (opened : Nat) (stack : List TmpIterator) :
    traceBelow node (opened + 1) stack = traceOf node.children opened stack := by
  cases node
  rw [traceBelow, children_mk]

/-- The tokens on the path of an iterator, from the first branch to the last. -/
def pathTokens (stack : List TmpIterator) : EncodedFormula :=
  stack.reverse.filterMap fun iterator => iterator.head?.map Prod.fst

@[simp] theorem pathTokens_nil : pathTokens [] = [] := rfl

@[simp] theorem pathTokens_cons (token : EncodedToken) (node : TmpIndexNode) (rest : TmpIterator)
    (stack : List TmpIterator) :
    pathTokens (((token, node) :: rest) :: stack) = pathTokens stack ++ [token] := by
  simp [pathTokens]

/-- The returns of `next` in a walk: the path and the node. -/
def yields (walk : List WalkItem) : List (EncodedFormula × TmpIndexNode) :=
  walk.filterMap fun item =>
    match item with
    | .call _ => none
    | .yield stack node => some (pathTokens stack, node)

@[simp] theorem yields_nil : yields [] = [] := rfl

@[simp] theorem yields_call (event : IteratorEvent TmpIterator) (walk : List WalkItem) :
    yields (.call event :: walk) = yields walk := rfl

@[simp] theorem yields_yield (stack : List TmpIterator) (node : TmpIndexNode) (walk : List WalkItem) :
    yields (.yield stack node :: walk) = (pathTokens stack, node) :: yields walk := rfl

@[simp] theorem yields_append (first second : List WalkItem) :
    yields (first ++ second) = yields first ++ yields second := List.filterMap_append

@[simp] theorem yields_map_call (events : List (IteratorEvent TmpIterator)) :
    yields (events.map .call) = [] := by
  induction events with
  | nil => rfl
  | cons event rest ih => exact ih

/-- The virtual calls in a walk. -/
def calls (walk : List WalkItem) : List (IteratorEvent TmpIterator) :=
  walk.filterMap fun item =>
    match item with
    | .call event => some event
    | .yield _ _ => none

@[simp] theorem calls_nil : calls [] = [] := rfl

@[simp] theorem calls_call (event : IteratorEvent TmpIterator) (walk : List WalkItem) :
    calls (.call event :: walk) = event :: calls walk := rfl

@[simp] theorem calls_yield (stack : List TmpIterator) (node : TmpIndexNode) (walk : List WalkItem) :
    calls (.yield stack node :: walk) = calls walk := rfl

@[simp] theorem calls_append (first second : List WalkItem) : calls (first ++ second) = calls first ++ calls second :=
  List.filterMap_append

@[simp] theorem calls_map_call (events : List (IteratorEvent TmpIterator)) : calls (events.map .call) = events := by
  induction events with
  | nil => rfl
  | cons event rest ih => rw [List.map_cons, calls_call, ih]

/-- **The iterator returns the terms below its node, in their order.** -/
theorem yields_traceBelow (node : TmpIndexNode) : ∀ (opened : Nat) (stack : List TmpIterator),
    yields (traceBelow node opened stack) =
      (node.terms opened).map fun term => (pathTokens stack ++ term.1, term.2) := by
  induction node with
  | mk leaf children ih =>
    intro opened stack
    cases opened with
    | zero => simp
    | succ opened =>
      rw [traceBelow_succ, terms_succ, children_mk]
      clear leaf
      induction children with
      | nil => rfl
      | cons entry rest ihRest =>
        obtain ⟨token, node⟩ := entry
        rw [traceOf, termsOf, yields_call, yields_append, yields_call,
          ih (token, node) List.mem_cons_self,
          ihRest fun other member => ih other (List.mem_cons_of_mem _ member)]
        simp

/-! ### Suspended iterators -/

/-- **A suspended iterator**: its stack, the number of subterms open on its path and the part of the
walk that is still in front of it. Above the node it was set to, `base` more subterms are open. -/
inductive Suspended (base : Nat) : List TmpIterator → Nat → List WalkItem → Prop
  | nil : Suspended base [] 1 []
  | cons {stack : List TmpIterator} {opened : Nat} {walk : List WalkItem} {token : EncodedToken}
      {node : TmpIndexNode} {rest : TmpIterator} :
      Suspended base stack (opened + 1) walk →
      (∀ entry ∈ (token, node) :: rest, WellFormed (base + (opened + entry.1.arity)) entry.2) →
      Suspended base (((token, node) :: rest) :: stack) (opened + token.arity)
        (.call (.onPop ((token, node) :: rest)) :: (traceOf rest opened stack ++ walk))

theorem Suspended.iterators_ne_nil {base opened : Nat} {stack : List TmpIterator} {walk : List WalkItem}
    (suspended : Suspended base stack opened walk) : ∀ iterator ∈ stack, iterator ≠ [] := by
  induction suspended with
  | nil => intro iterator member; cases member
  | cons _ _ ih =>
    intro iterator member
    rcases List.mem_cons.mp member with rfl | member
    · exact List.cons_ne_nil _ _
    · exact ih iterator member

namespace IndexIterator

variable (index : TmpIndex) {base : Nat}

/-- What a call of `next` that returns a node leaves behind. -/
def Yielded (base : Nat) (walk : List WalkItem) (root : Option TmpIndexNode)
    (output : IndexIterator TmpIndexNode TmpIterator × Option TmpIndexNode ×
      List (IteratorEvent TmpIterator)) : Prop :=
  ∃ stack token node rest walk', output.1 = ⟨((token, node) :: rest) :: stack, 0, root⟩ ∧
    output.2.1 = some node ∧ WellFormed base node ∧
    Suspended base (((token, node) :: rest) :: stack) 0 walk' ∧
    walk = output.2.2.map .call ++ .yield (((token, node) :: rest) :: stack) node :: walk'

theorem complete_inl {fuel : Nat} {self self' : IndexIterator TmpIndexNode TmpIterator}
    {events events' : List (IteratorEvent TmpIterator)}
    (step : completeStep strictAccessor index (self, events) = some (.inl (self', events'))) :
    complete strictAccessor index (fuel + 1) self events =
      complete strictAccessor index fuel self' events' := by
  rw [complete, complete, Fuel.loop_inl step]

/-- One round of the loop: the first child of the last node is the new last branch. -/
theorem completeStep_push {opened : Nat} {stack : List TmpIterator} {token token' : EncodedToken}
    {node node' : TmpIndexNode} {rest rest' : TmpIterator} {root : Option TmpIndexNode}
    {events : List (IteratorEvent TmpIterator)} (children : node.children = (token', node') :: rest') :
    completeStep strictAccessor index
        (⟨((token, node) :: rest) :: stack, ((opened + 1 : Nat) : Int), root⟩, events) =
      some (.inl (⟨((token', node') :: rest') :: ((token, node) :: rest) :: stack,
        ((opened + token'.arity : Nat) : Int), root⟩, events ++ [.onPush ((token', node') :: rest')])) := by
  have more : (0 : Int) < ((opened + 1 : Nat) : Int) := by omega
  have count : ((opened + 1 : Nat) : Int) + ((token'.arity : Int) - 1) =
      ((opened + token'.arity : Nat) : Int) := by
    push_cast
    ring
  rw [completeStep, if_pos more]
  simp [push, children, ← count]

/-- **Completing the expression**: from the last branch the loop descends along the first children
until no subterm is missing. -/
theorem complete_spec (node : TmpIndexNode) : ∀ {opened : Nat} {stack : List TmpIterator}
    {walk : List WalkItem} {token : EncodedToken} {rest : TmpIterator} (root : Option TmpIndexNode)
    (events : List (IteratorEvent TmpIterator)),
    Suspended base (((token, node) :: rest) :: stack) opened walk →
    WellFormed (base + opened) node →
    ∃ fuel output, complete strictAccessor index fuel
        ⟨((token, node) :: rest) :: stack, opened, root⟩ events = some output ∧
      Yielded base (events.map .call ++
        (traceBelow node opened (((token, node) :: rest) :: stack) ++ walk)) root output := by
  induction node with
  | mk leaf children ih =>
    intro opened stack walk token rest root events suspended shape
    cases opened with
    | zero =>
      refine ⟨1, (⟨((token, TmpIndexNode.mk leaf children) :: rest) :: stack, 0, root⟩,
        some (TmpIndexNode.mk leaf children), events), rfl, _, _, _, _, walk, rfl, rfl, shape,
        suspended, ?_⟩
      simp
    | succ opened =>
      obtain ⟨⟨token', node'⟩, rest', rfl⟩ := List.exists_cons_of_ne_nil
        (WellFormed.children_ne_nil (Nat.add_assoc base opened 1 ▸ shape))
      have pushed := Suspended.cons suspended fun entry member => shape.entryAbove member
      obtain ⟨fuel, output, computed, split⟩ := ih (token', node') List.mem_cons_self root
        (events ++ [.onPush ((token', node') :: rest')]) pushed
        (shape.entryAbove List.mem_cons_self)
      refine ⟨fuel + 1, output, ?_, ?_⟩
      · rw [complete_inl index (completeStep_push index rfl)]
        exact computed
      · simpa [traceOf] using split

/-- **Leaving the branches without a next entry.** -/
theorem popLoop_spec {stack : List TmpIterator} {opened : Nat} {walk : List WalkItem}
    (suspended : Suspended base stack opened walk) :
    (∃ events, popLoop strictAccessor index stack opened = some ([], 1, events) ∧
      walk = events.map .call) ∨
    ∃ token node second rest stack' opened' walk' events,
      popLoop strictAccessor index stack opened =
        some (((token, node) :: second :: rest) :: stack', ((opened' + token.arity : Nat) : Int), events) ∧
      Suspended base stack' (opened' + 1) walk' ∧
      (∀ entry ∈ second :: rest, WellFormed (base + (opened' + entry.1.arity)) entry.2) ∧
      walk = events.map .call ++ .call (.onPop ((token, node) :: second :: rest)) ::
        (traceOf (second :: rest) opened' stack' ++ walk') := by
  induction suspended with
  | nil => exact Or.inl ⟨[], rfl, rfl⟩
  | @cons stack opened walk token node rest suspended below ih =>
    cases rest with
    | nil =>
      have count : ((opened + token.arity : Nat) : Int) - ((token.arity : Int) - 1) =
          ((opened + 1 : Nat) : Int) := by
        push_cast
        ring
      have popped : popLoop strictAccessor index ([(token, node)] :: stack)
          ((opened + token.arity : Nat) : Int) =
            (popLoop strictAccessor index stack ((opened + 1 : Nat) : Int)).map
              fun result => (result.1, result.2.1, .onPop [(token, node)] :: result.2.2) := by
        rw [popLoop, ← count]
        simp [Option.map_eq_bind]
      rcases ih with ⟨events, computed, split⟩ |
        ⟨token', node', second, rest, stack', opened', walk', events, computed, suspended', below', split⟩
      · refine Or.inl ⟨.onPop [(token, node)] :: events, by rw [popped, computed]; rfl, ?_⟩
        rw [split]
        rfl
      · refine Or.inr ⟨token', node', second, rest, stack', opened', walk',
          .onPop [(token, node)] :: events, by rw [popped, computed]; rfl, suspended', below', ?_⟩
        rw [split]
        rfl
    | cons second rest =>
      exact Or.inr ⟨token, node, second, rest, stack, opened, walk, [], rfl, suspended,
        fun entry member => below entry (List.mem_cons_of_mem _ member), rfl⟩

/-- **The first call of `next`** at a node with `base + 1` open subterms. -/
theorem next_start {root : TmpIndexNode} (shape : WellFormed (base + 1) root) :
    ∃ fuel output, next strictAccessor index fuel (start root) = some output ∧
      Yielded base (traceBelow root 1 []) (some root) output := by
  obtain ⟨⟨token, node⟩, rest, children⟩ := List.exists_cons_of_ne_nil shape.children_ne_nil
  have below : ∀ entry ∈ (token, node) :: rest, WellFormed (base + (0 + entry.1.arity)) entry.2 := by
    intro entry member
    rw [Nat.zero_add]
    exact shape.entry (children ▸ member)
  obtain ⟨fuel, output, computed, split⟩ := complete_spec index node (some root)
    [.onPush ((token, node) :: rest)] (Suspended.cons .nil below) (below _ List.mem_cons_self)
  refine ⟨fuel, output, ?_, ?_⟩
  · rw [← computed]
    simp [next, start, push, children]
  · rw [traceBelow_succ, children, traceOf]
    simpa using split

/-- **Every further call of `next`** takes the walk to its next return, or to its end. -/
theorem next_spec {stack : List TmpIterator} {opened : Nat} {walk : List WalkItem}
    (suspended : Suspended base stack opened walk) (nonempty : stack ≠ [])
    (root : Option TmpIndexNode) :
    (∃ fuel output, next strictAccessor index fuel ⟨stack, opened, root⟩ = some output ∧
      Yielded base walk root output) ∨
    ∃ events, (∀ fuel, next strictAccessor index fuel ⟨stack, opened, root⟩ =
      some (⟨[], 1, root⟩, none, events)) ∧ walk = events.map .call := by
  obtain ⟨back, below, rfl⟩ := List.exists_cons_of_ne_nil nonempty
  rcases popLoop_spec index suspended with ⟨events, popped, split⟩ |
    ⟨token, node, ⟨token', node'⟩, rest, stack', opened', walk', events, popped, suspended', shapes, split⟩
  · refine Or.inr ⟨events, fun fuel => ?_, split⟩
    simp [next, popped]
  · left
    have forward := Suspended.cons suspended' shapes
    obtain ⟨fuel, output, computed, yielded⟩ := complete_spec index node' root
      (events ++ [.onPop ((token, node) :: (token', node') :: rest), .onPush ((token', node') :: rest)])
      forward (shapes _ List.mem_cons_self)
    refine ⟨fuel, output, ?_, ?_⟩
    · have count : ((opened' + token.arity : Nat) : Int) + ((token'.arity : Int) - token.arity) =
          ((opened' + token'.arity : Nat) : Int) := by
        push_cast
        ring
      rw [← computed, next, popped, ← count]
      rfl
    · rw [split, traceOf]
      simpa using yielded

end IndexIterator

end MathWebSearch
