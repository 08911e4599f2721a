/-
**A whole enumeration by the index iterator** (`IndexIterator::set`, `IndexIterator::next`, `onPush`, `onPop`).

* `enumerate` — calling `next` until it returns null: the paths and nodes returned, all virtual calls, and the
  iterator that is left.
* `terms_before` — the terms below a node come in the lexicographic order of the children.
* `Nested`, `nested_calls` — the virtual calls are properly nested.
* `pushedPaths`, `mem_edges_iff`, `edges_nodup` — every edge that lies on a term is pushed once.
* `enumerate_set` — all of it for an iterator without open branches that is set to a node with children.
-/

import MathWebSearch.Index.AccessorSimulation
import MathWebSearch.Index.IteratorTrace
import MathWebSearch.Index.TrieContents

namespace MathWebSearch

open TmpIndexNode PrefixCode

namespace TmpIndexNode

/-! ### The terms below a node and their edges -/

/-- In a well-formed trie the edges are found by `children.find`. -/
theorem WellFormed.reaches_iff (path : EncodedFormula) : ∀ {opened : Nat} {node last : TmpIndexNode},
    WellFormed opened node → (Reaches node path last ↔ walk path node = some last) := by
  induction path with
  | nil =>
    intro opened node last _
    constructor
    · intro reaches
      cases reaches
      rfl
    · intro walked
      obtain rfl := Option.some.inj walked
      exact .here _
  | cons token rest ih =>
    intro opened node last shape
    rw [walk, Option.bind_eq_some_iff]
    constructor
    · intro reaches
      cases reaches with
      | @step _ _ entry _ member reaches =>
        obtain ⟨_, below⟩ := WellFormed.reaches (.step member (.here _)) shape
        exact ⟨entry.2, shape.child_of_mem member, (ih below).mp reaches⟩
    · rintro ⟨next, found, walked⟩
      have member := (VectorMap.find_eq_some_iff shape.sorted).mp found
      obtain ⟨_, below⟩ := WellFormed.reaches (.step member (.here _)) shape
      exact @Reaches.step _ _ (token, next) _ member ((ih below).mpr walked)

/-- The first word branches off to an earlier child than the second. -/
def Before (node : TmpIndexNode) (first second : EncodedFormula) : Prop :=
  ∃ front branching token token' next next' rest rest', first = front ++ token :: rest ∧
    second = front ++ token' :: rest' ∧ Reaches node front branching ∧
    [(token, next), (token', next')].Sublist branching.children

theorem Before.cons {node : TmpIndexNode} {entry : EncodedToken × TmpIndexNode} (member : entry ∈ node.children)
    {first second : EncodedFormula} (before : Before entry.2 first second) :
    Before node (entry.1 :: first) (entry.1 :: second) := by
  obtain ⟨front, branching, token, token', next, next', rest, rest', rfl, rfl, reaches, sublist⟩ := before
  exact ⟨entry.1 :: front, branching, token, token', next, next', rest, rest', rfl, rfl, .step member reaches, sublist⟩

/-- **The terms come in the order of the children.** -/
theorem terms_before (node : TmpIndexNode) : ∀ opened,
    (node.terms opened).Pairwise fun term term' => Before node term.1 term'.1 := by
  induction node with
  | mk leaf children ih =>
    intro opened
    cases opened with
    | zero =>
      rw [terms_zero]
      exact List.pairwise_singleton _ _
    | succ opened =>
      rw [terms_succ, termsOf_eq_flatMap, List.pairwise_flatMap]
      constructor
      · intro entry member
        refine List.pairwise_map.mpr ((ih entry member _).imp fun before => ?_)
        exact before.cons member
      · refine List.pairwise_iff_forall_sublist.mpr fun {first second} sublist => ?_
        intro term inside term' inside'
        obtain ⟨below, _, rfl⟩ := List.mem_map.mp inside
        obtain ⟨below', _, rfl⟩ := List.mem_map.mp inside'
        exact ⟨[], _, first.1, second.1, first.2, second.2, below.1, below'.1, rfl, rfl, .here _, sublist⟩

mutual

/-- The edges on the terms below a node, each as the path that ends with it. -/
def edges : TmpIndexNode → Nat → List EncodedFormula
  | mk _ _, 0 => []
  | mk _ children, opened + 1 => edgesOf children opened

/-- The edges of `edges` from the given children on. -/
def edgesOf : List (EncodedToken × TmpIndexNode) → Nat → List EncodedFormula
  | [], _ => []
  | (token, node) :: rest, opened =>
    ([] :: edges node (opened + token.arity)).map (token :: ·) ++ edgesOf rest opened

end

@[simp] theorem edges_zero (node : TmpIndexNode) : node.edges 0 = [] := by
  cases node
  rw [edges]

@[simp] theorem edges_succ (node : TmpIndexNode) (opened : Nat) :
    node.edges (opened + 1) = edgesOf node.children opened := by
  cases node
  rw [edges, children_mk]

theorem edgesOf_eq_flatMap (children : List (EncodedToken × TmpIndexNode)) (opened : Nat) :
    edgesOf children opened = children.flatMap fun entry =>
      ([] :: entry.2.edges (opened + entry.1.arity)).map (entry.1 :: ·) := by
  induction children with
  | nil => rfl
  | cons entry rest ih => rw [edgesOf, ih, List.flatMap_cons]

theorem terms_ne_nil {base opened : Nat} {node : TmpIndexNode} (shape : WellFormed (base + opened) node) :
    node.terms opened ≠ [] := by
  intro none
  have leaves := leaves_eq_terms shape
  rw [none, List.flatMap_nil] at leaves
  exact leaves_ne_nil shape leaves

/-- **The edges are the paths that lead on to a term.** -/
theorem mem_edges_iff {base : Nat} {node : TmpIndexNode} : ∀ {opened : Nat}, WellFormed (base + opened) node →
    ∀ {path : EncodedFormula}, path ∈ node.edges opened ↔
      path ≠ [] ∧ ∃ term ∈ node.terms opened, path <+: term.1 := by
  induction node with
  | mk leaf children ih =>
    intro opened shape path
    cases opened with
    | zero =>
      rw [edges_zero, terms_zero]
      constructor
      · intro member
        cases member
      · rintro ⟨nonempty, term, only, front⟩
        rw [List.mem_singleton.mp only] at front
        exact absurd (List.prefix_nil.mp front) nonempty
    | succ opened =>
      rw [edges_succ, edgesOf_eq_flatMap, terms_succ, termsOf_eq_flatMap]
      constructor
      · intro member
        obtain ⟨entry, among, inside⟩ := List.mem_flatMap.mp member
        obtain ⟨rest, first, rfl⟩ := List.mem_map.mp inside
        have below := shape.entryAbove among
        obtain ⟨term, isTerm, front⟩ : ∃ term ∈ entry.2.terms (opened + entry.1.arity), rest <+: term.1 := by
          rcases List.mem_cons.mp first with rfl | deeper
          · obtain ⟨term, isTerm⟩ := List.exists_mem_of_ne_nil _ (terms_ne_nil below)
            exact ⟨term, isTerm, List.nil_prefix⟩
          · exact ((ih entry among below).mp deeper).2
        refine ⟨List.cons_ne_nil _ _, (entry.1 :: term.1, term.2), ?_, List.cons_prefix_cons.mpr ⟨rfl, front⟩⟩
        exact List.mem_flatMap.mpr ⟨entry, among, List.mem_map.mpr ⟨term, isTerm, rfl⟩⟩
      · rintro ⟨nonempty, term, member, front⟩
        obtain ⟨entry, among, inside⟩ := List.mem_flatMap.mp member
        obtain ⟨below, isTerm, rfl⟩ := List.mem_map.mp inside
        obtain ⟨token, rest, rfl⟩ := List.exists_cons_of_ne_nil nonempty
        obtain ⟨rfl, onward⟩ := List.cons_prefix_cons.mp front
        refine List.mem_flatMap.mpr ⟨entry, among, List.mem_map.mpr ⟨rest, ?_, rfl⟩⟩
        by_cases last : rest = []
        · rw [last]
          exact List.mem_cons_self
        · exact List.mem_cons_of_mem _ ((ih entry among (shape.entryAbove among)).mpr ⟨last, below, isTerm, onward⟩)

/-- Every edge is listed once. -/
theorem edges_nodup {base : Nat} {node : TmpIndexNode} : ∀ {opened : Nat}, WellFormed (base + opened) node →
    (node.edges opened).Nodup := by
  induction node with
  | mk leaf children ih =>
    intro opened shape
    cases opened with
    | zero =>
      rw [edges_zero]
      exact List.nodup_nil
    | succ opened =>
      have below : ∀ entry ∈ children, ((([] :: entry.2.edges (opened + entry.1.arity)).map
          fun word => (word, ())).map Prod.fst).Nodup := by
        intro entry member
        rw [List.map_map]
        show (List.map id _).Nodup
        rw [List.map_id]
        refine List.nodup_cons.mpr ⟨fun empty => ?_, ih entry member (shape.entryAbove member)⟩
        exact ((mem_edges_iff (shape.entryAbove member)).mp empty).1 rfl
      have branches := nodup_branches shape.sorted.nodup below
      rw [List.map_flatMap] at branches
      rw [edges_succ, edgesOf_eq_flatMap]
      refine (congrArg List.Nodup (List.flatMap_congr fun entry _ => ?_)).mp branches
      rw [List.map_map, List.map_map]
      rfl

end TmpIndexNode

/-! ### Nested calls -/

/-- Properly nested calls: every iterator that is pushed is popped again, after those pushed behind it. -/
inductive Nested : List (IteratorEvent TmpIterator) → Prop
  | nil : Nested []
  | pair {iterator : TmpIterator} {inner rest : List (IteratorEvent TmpIterator)} :
      Nested inner → Nested rest → Nested (.onPush iterator :: (inner ++ .onPop iterator :: rest))

/-- **The virtual calls of a walk are properly nested.** -/
theorem nested_calls (node : TmpIndexNode) : ∀ (opened : Nat) (stack : List TmpIterator),
    Nested (calls (traceBelow node opened stack)) := by
  induction node with
  | mk leaf children ih =>
    intro opened stack
    cases opened with
    | zero =>
      rw [traceBelow_zero]
      exact .nil
    | succ opened =>
      rw [traceBelow_succ, children_mk]
      clear leaf
      induction children with
      | nil => exact .nil
      | cons entry rest ihRest =>
        obtain ⟨token, node⟩ := entry
        rw [traceOf, calls_call, calls_append, calls_call]
        exact .pair (ih (token, node) List.mem_cons_self _ _)
          (ihRest fun other member => ih other (List.mem_cons_of_mem _ member))

/-- The paths to the edges that are pushed, in order, by the iterators that are on the stack at each time. -/
def pushedPaths : List TmpIterator → List (IteratorEvent TmpIterator) → List EncodedFormula
  | _, [] => []
  | stack, .onPush iterator :: rest => pathTokens (iterator :: stack) :: pushedPaths (iterator :: stack) rest
  | stack, .onPop _ :: rest => pushedPaths stack.tail rest

/-- **What a walk pushes** are the edges below its node. -/
theorem pushedPaths_calls (node : TmpIndexNode) : ∀ (opened : Nat) (stack : List TmpIterator)
    (after : List (IteratorEvent TmpIterator)),
    pushedPaths stack (calls (traceBelow node opened stack) ++ after) =
      (node.edges opened).map (pathTokens stack ++ ·) ++ pushedPaths stack after := by
  induction node with
  | mk leaf children ih =>
    intro opened stack after
    cases opened with
    | zero => simp
    | succ opened =>
      rw [traceBelow_succ, edges_succ, children_mk]
      clear leaf
      induction children with
      | nil => rfl
      | cons entry rest ihRest =>
        obtain ⟨token, node⟩ := entry
        have onward := ihRest fun other member => ih other (List.mem_cons_of_mem _ member)
        rw [traceOf, calls_call, calls_append, calls_call, List.cons_append, pushedPaths, List.append_assoc,
          ih (token, node) List.mem_cons_self, List.cons_append, pushedPaths, List.tail_cons, onward, edgesOf]
        simp [Function.comp_def]

/-! ### The enumeration -/

namespace IndexIterator

section Enumerate

variable {Index Node Iterator : Type} (A : Accessor Index Node Iterator) (index : Index) (fuel : Nat)

/-- `next` until it returns null: what it returned, with the path at that time, the virtual calls it made, and the
iterator at the end. -/
def enumerate : Nat → IndexIterator Node Iterator →
    Option (List (List Iterator × Node) × List (IteratorEvent Iterator) × IndexIterator Node Iterator)
  | 0, _ => none
  | rounds + 1, self => do
    let (self, node, events) ← self.next A index fuel
    match node with
    | none => return ([], events, self)
    | some node =>
      let (found, events', last) ← enumerate rounds self
      return ((self.getPath, node) :: found, events ++ events', last)

end Enumerate

/-- The tokens along a path of iterators. -/
def spelled (path : List TmpIterator) : EncodedFormula := path.filterMap fun iterator => iterator.head?.map Prod.fst

/-- What an enumeration has to give for a walk. -/
def Enumerates (index : TmpIndex) (self : IndexIterator TmpIndexNode TmpIterator) (walk : List WalkItem) : Prop :=
  ∃ enough found, (found.map fun entry => (spelled entry.1, entry.2)) = yields walk ∧
    ∀ fuel rounds, enough ≤ fuel → enough ≤ rounds →
      enumerate strictAccessor index fuel rounds self = some (found, calls walk, ⟨[], 1, self.root⟩)

variable {index : TmpIndex} {base : Nat}

theorem Enumerates.of_null {self : IndexIterator TmpIndexNode TmpIterator}
    {events : List (IteratorEvent TmpIterator)}
    (null : ∀ fuel, self.next strictAccessor index fuel = some (⟨[], 1, self.root⟩, none, events)) :
    Enumerates index self (events.map .call) := by
  refine ⟨1, [], by simp, fun fuel rounds _ more => ?_⟩
  obtain ⟨rounds, rfl⟩ := Nat.exists_eq_add_of_le' more
  rw [enumerate, null, calls_map_call]
  rfl

/-- A node is returned, and the rest of the walk is enumerated. -/
theorem Enumerates.of_yielded {self : IndexIterator TmpIndexNode TmpIterator} {walk : List WalkItem} {fuel : Nat}
    {output : IndexIterator TmpIndexNode TmpIterator × Option TmpIndexNode × List (IteratorEvent TmpIterator)}
    (computed : self.next strictAccessor index fuel = some output) (yielded : Yielded base walk self.root output)
    (onward : ∀ stack walk', stack ≠ [] → Suspended base stack 0 walk' → walk'.length < walk.length →
      Enumerates index ⟨stack, 0, self.root⟩ walk') : Enumerates index self walk := by
  obtain ⟨stack, token, node, rest, walk', after, returned, _, suspended, rfl⟩ := yielded
  obtain ⟨enough, found, same, run⟩ := onward _ walk' (List.cons_ne_nil _ _) suspended
    (by rw [List.length_append, List.length_cons]; omega)
  obtain ⟨self', node', events⟩ := output
  simp only at after returned
  subst after returned
  refine ⟨max fuel enough + 1, ((((token, node) :: rest) :: stack).reverse, node) :: found, ?_, ?_⟩
  · rw [List.map_cons, same, yields_append, yields_map_call, List.nil_append, yields_yield]
    rfl
  · intro fuel' rounds moreFuel moreRounds
    obtain ⟨rounds, rfl⟩ := Nat.exists_eq_add_of_le' (show 1 ≤ rounds by omega)
    rw [enumerate, (next_mono strictAccessor index).le (show fuel ≤ fuel' by omega) computed]
    simp only [Option.bind_eq_bind, Option.bind_some]
    rw [run fuel' rounds (by omega) (by omega), calls_append, calls_map_call, calls_yield]
    rfl

/-- From a suspended iterator on. -/
theorem enumerates_suspended (root : Option TmpIndexNode) : ∀ (length : Nat) {stack : List TmpIterator}
    {walk : List WalkItem}, walk.length < length → stack ≠ [] → Suspended base stack 0 walk →
      Enumerates index ⟨stack, 0, root⟩ walk := by
  intro length
  induction length with
  | zero => intro stack walk short; omega
  | succ length ih =>
    intro stack walk short nonempty suspended
    rcases next_spec index suspended nonempty root with ⟨fuel, output, computed, yielded⟩ | ⟨events, null, rfl⟩
    · refine Enumerates.of_yielded computed yielded fun stack' walk' nonempty' suspended' shorter => ?_
      exact ih (by omega) nonempty' suspended'
    · exact Enumerates.of_null null

/-- **A whole enumeration**, from the node it starts at. -/
theorem enumerates_start {root : TmpIndexNode} (shape : WellFormed (base + 1) root) :
    Enumerates index (start root) (traceBelow root 1 []) := by
  obtain ⟨fuel, output, computed, yielded⟩ := next_start index shape
  refine Enumerates.of_yielded computed yielded fun stack walk nonempty suspended _ => ?_
  exact enumerates_suspended (some root) _ (Nat.lt_succ_self _) nonempty suspended

/-- What is enumerated with the accessor that has to answer is enumerated with that of the source. -/
theorem enumerate_of_strict {fuel : Nat} (rounds : Nat) : ∀ {self : IndexIterator TmpIndexNode TmpIterator}
    {result : List (List TmpIterator × TmpIndexNode) × List (IteratorEvent TmpIterator) ×
      IndexIterator TmpIndexNode TmpIterator},
    enumerate strictAccessor index fuel rounds self = some result →
      enumerate tmpIndexAccessor index fuel rounds self = some result := by
  induction rounds with
  | zero => intro self result computed; cases computed
  | succ rounds ih =>
    intro self result computed
    rw [enumerate, Option.bind_eq_bind, Option.bind_eq_some_iff] at computed
    obtain ⟨⟨self', node, events⟩, stepped, onward⟩ := computed
    rw [enumerate, next_of_strict stepped, Option.bind_eq_bind, Option.bind_some]
    cases node with
    | none => exact onward
    | some node =>
      simp only [Option.bind_eq_bind, Option.bind_eq_some_iff] at onward
      obtain ⟨⟨found, events', last⟩, later, same⟩ := onward
      simp only [ih later, Option.bind_eq_bind, Option.bind_some]
      exact same

/-- **IndexIterator enumerates every complete subterm once.** In every trie of complete prefix codes and for every
node with children, an iterator without open branches that is set to the node: `next` returns the nodes at the end
of the complete terms below it, in the lexicographic order of the children and each with a path that spells its
term; then it returns null, the assertion holds and no branch is open; and all its calls of `onPush` and
`onPop` are properly nested and push every edge that lies on such a term once. -/
theorem enumerate_set {formulas : List EncodedFormula} (grown : TmpIndex.Grown formulas index)
    {front : EncodedFormula} {root : TmpIndexNode} (reaches : Reaches index.root front root)
    (inner : root.children ≠ []) :
    ∃ enough found events, (∀ (self : IndexIterator TmpIndexNode TmpIterator), self.backtrackIterators = [] →
      ∀ fuel, enough ≤ fuel →
        enumerate tmpIndexAccessor index fuel fuel (self.set root) = some (found, events, ⟨[], 1, some root⟩)) ∧
      (∀ word node, (word, node) ∈ found.map (fun entry => (spelled entry.1, entry.2)) ↔
        word.IsPrefixCode ∧ Reaches root word node) ∧
      (found.map fun entry => spelled entry.1).Nodup ∧
      (found.map fun entry => spelled entry.1).Pairwise (Before root) ∧
      Nested events ∧ (pushedPaths [] events).Nodup ∧
      ∀ path, path ∈ pushedPaths [] events ↔ path ≠ [] ∧
        ∃ term node, term.IsPrefixCode ∧ Reaches root term node ∧ path <+: term := by
  obtain ⟨base, shape⟩ := grown.shaped.inner_wellFormed reaches inner
  have isTerm : ∀ {word node}, (word, node) ∈ root.terms 1 ↔ word.IsPrefixCode ∧ Reaches root word node := by
    intro word node
    rw [mem_terms_iff shape, ← shape.reaches_iff, EncodedFormula.isPrefixCode_iff]
  obtain ⟨enough, found, returned, run⟩ := @enumerates_start index base root shape
  have terms : (found.map fun entry => (spelled entry.1, entry.2)) = root.terms 1 := by
    rw [returned, yields_traceBelow]
    exact List.map_id _
  have words : (found.map fun entry => spelled entry.1) = (root.terms 1).map Prod.fst := by
    rw [← terms, List.map_map]
    rfl
  have pushed : pushedPaths [] (calls (traceBelow root 1 [])) = root.edges 1 := by
    have all := pushedPaths_calls root 1 [] []
    rw [List.append_nil] at all
    rw [all, pushedPaths, List.append_nil]
    exact List.map_id _
  refine ⟨enough, found, calls (traceBelow root 1 []), ?_, ?_, ?_, ?_, nested_calls root 1 [], ?_, ?_⟩
  · rintro ⟨_, arity, root'⟩ rfl fuel more
    exact enumerate_of_strict fuel (run fuel fuel more more)
  · intro word node
    rw [terms]
    exact isTerm
  · rw [words]
    exact terms_nodup shape
  · rw [words]
    exact List.pairwise_map.mpr (terms_before root 1)
  · rw [pushed]
    exact edges_nodup shape
  · intro path
    rw [pushed, mem_edges_iff shape]
    refine and_congr_right fun _ => ⟨?_, ?_⟩
    · rintro ⟨⟨term, node⟩, member, onward⟩
      obtain ⟨complete, reached⟩ := isTerm.mp member
      exact ⟨term, node, complete, reached, onward⟩
    · rintro ⟨term, node, complete, reached, onward⟩
      exact ⟨(term, node), isTerm.mpr ⟨complete, reached⟩, onward⟩

/-- The index of `f(f(x))`, enumerated from the node below the first `f`. -/
theorem enumerate_set_chain : ∃ index root enough found events, Reaches index.root [encodedToken 162 1] root ∧
    (∀ fuel, enough ≤ fuel → enumerate tmpIndexAccessor index fuel fuel (unset.set root) =
      some (found, events, ⟨[], 1, some root⟩)) ∧
    (∃ node, ([encodedToken 162 1, encodedToken 163 0], node) ∈
      found.map fun entry => (spelled entry.1, entry.2)) := by
  let last : TmpIndexNode := leafNode ⟨1, 0⟩
  let middle : TmpIndexNode := TmpIndexNode.mk none [(encodedToken 163 0, last)]
  let root : TmpIndexNode := TmpIndexNode.mk none [(encodedToken 162 1, middle)]
  let index : TmpIndex := ⟨TmpIndexNode.mk none [(encodedToken 162 1, root)], 1⟩
  have inserted : (TmpIndex.empty 0).insertData (TmpIndex.chain 2) = some (index, ⟨1, 0⟩) := by rfl
  have grown : TmpIndex.Grown [TmpIndex.chain 2] index := .insertData (.empty 0) (TmpIndex.chain_complete 2) inserted
  have edge : Reaches index.root [encodedToken 162 1] root :=
    @Reaches.step _ _ (encodedToken 162 1, root) _ List.mem_cons_self (.here root)
  have below : Reaches root [encodedToken 162 1, encodedToken 163 0] last :=
    @Reaches.step _ _ (encodedToken 162 1, middle) _ List.mem_cons_self
      (@Reaches.step _ _ (encodedToken 163 0, last) _ List.mem_cons_self (.here last))
  obtain ⟨enough, found, events, run, terms, _⟩ := enumerate_set grown edge (List.cons_ne_nil _ _)
  exact ⟨index, root, enough, found, events, edge, fun fuel more => run unset rfl fuel more,
    last, (terms _ _).mpr ⟨by decide, below⟩⟩

end IndexIterator

end MathWebSearch
