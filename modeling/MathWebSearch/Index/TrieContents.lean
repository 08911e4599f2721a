/-
**What the trie stores** (`TmpIndex::insertData`).

The trie is looked at from outside here: by the nodes one reaches along its edges, not by the walk of `insertData`.

* `reaches_leaf_iff` — the leaf nodes that are reached are the listed leaves.
* `Grown.insertData_next` — one more insertion: the leaf of the formula, old or new, and nothing else touched.
* `Grown.leafPaths` — the paths to leaf nodes are the inserted formulas.
-/

import MathWebSearch.Index.TmpIndex

namespace MathWebSearch

open PrefixCode

namespace TmpIndexNode

/-- The node one comes to along the edges with the given tokens. -/
inductive Reaches : TmpIndexNode → EncodedFormula → TmpIndexNode → Prop
  | here (node : TmpIndexNode) : Reaches node [] node
  | step {node last : TmpIndexNode} {entry : EncodedToken × TmpIndexNode} {path : EncodedFormula} :
      entry ∈ node.children → Reaches entry.2 path last → Reaches node (entry.1 :: path) last

/-- Whether a node is a `TmpLeafNode`. -/
def IsLeafNode (node : TmpIndexNode) : Prop := node.leaf.isSome

/-- **The leaf nodes that are reached are the listed leaves.** -/
theorem reaches_leaf_iff (path : EncodedFormula) : ∀ {node : TmpIndexNode} {leaf : TmpLeaf},
    (path, leaf) ∈ leaves node ↔ ∃ last, Reaches node path last ∧ last.leaf = some leaf := by
  induction path with
  | nil =>
    rintro ⟨leaf', children⟩ leaf
    have inner : ([], leaf) ∉ leavesOf children := fun member => by
      obtain ⟨_, _, _, _, _, impossible⟩ := mem_leavesOf.mp member
      cases impossible
    rw [leaves, List.mem_append, or_iff_left inner]
    constructor
    · intro member
      refine ⟨_, .here _, ?_⟩
      simpa using member
    · rintro ⟨_, here, found⟩
      cases here
      rw [leaf_mk] at found
      simp [found]
  | cons token rest ih =>
    rintro ⟨leaf', children⟩ leaf
    have own : (token :: rest, leaf) ∉ leaf'.toList.map fun leaf => (([] : EncodedFormula), leaf) := by simp
    rw [leaves, List.mem_append, or_iff_right own, mem_leavesOf]
    constructor
    · rintro ⟨token', next, rest', member, inside, same⟩
      obtain ⟨rfl, rfl⟩ := List.cons.inj same
      obtain ⟨last, reaches, found⟩ := ih.mp inside
      exact ⟨last, @Reaches.step _ _ (token, next) _ member reaches, found⟩
    · rintro ⟨last, reaches, found⟩
      cases reaches with
      | @step _ _ entry _ member reaches =>
        exact ⟨entry.1, entry.2, rest, member, ih.mpr ⟨last, reaches, found⟩, rfl⟩

/-- The nodes below a well-formed node are well formed. -/
theorem WellFormed.reaches {node last : TmpIndexNode} {path : EncodedFormula} (reaches : Reaches node path last) :
    ∀ {opened : Nat}, WellFormed opened node → ∃ opened', WellFormed opened' last := by
  induction reaches with
  | here node => intro opened shape; exact ⟨opened, shape⟩
  | step member _ ih =>
    intro opened shape
    cases shape with
    | leaf => cases member
    | inner _ _ below => exact ih (below _ member)

theorem Reaches.append {node middle last : TmpIndexNode} {path rest : EncodedFormula} (reaches : Reaches node path middle)
    (further : Reaches middle rest last) : Reaches node (path ++ rest) last := by
  induction reaches with
  | here => exact further
  | step member _ ih => exact .step member (ih further)

/-- From a well-formed node one comes to a leaf. -/
theorem WellFormed.exists_leafNode {node : TmpIndexNode} {opened : Nat} (shape : WellFormed opened node) :
    ∃ path last, Reaches node path last ∧ last.IsLeafNode := by
  obtain ⟨⟨path, leaf⟩, rest, list⟩ := List.exists_cons_of_ne_nil (leaves_ne_nil shape)
  obtain ⟨last, reaches, found⟩ := (reaches_leaf_iff path).mp (list ▸ List.mem_cons_self)
  exact ⟨path, last, reaches, by rw [IsLeafNode, found]; rfl⟩

/-- In a well-formed trie the leaf nodes are the nodes without children. -/
theorem WellFormed.isLeafNode_iff {node : TmpIndexNode} {opened : Nat} (shape : WellFormed opened node) :
    node.IsLeafNode ↔ node.children = [] := by
  cases shape with
  | leaf leaf => exact ⟨fun _ => rfl, fun _ => rfl⟩
  | inner nonempty => exact ⟨fun isLeaf => (by cases isLeaf), fun empty => absurd empty nonempty⟩

end TmpIndexNode

namespace TmpIndex

open TmpIndexNode

/-- A node of an index is a leaf node if and only if it has no children and is not the root. -/
theorem Shaped.isLeafNode_iff {index : TmpIndex} (shaped : index.Shaped) {path : EncodedFormula} {node : TmpIndexNode}
    (reaches : Reaches index.root path node) : node.IsLeafNode ↔ node.children = [] ∧ path ≠ [] := by
  rcases shaped with new | shape
  · rw [new] at reaches
    cases reaches with
    | here => exact ⟨fun isLeaf => (by cases isLeaf), fun inside => absurd rfl inside.2⟩
    | step member => cases member
  · cases reaches with
    | here =>
      rw [IsLeafNode, shape.leaf_eq_none]
      exact ⟨fun isLeaf => (by cases isLeaf), fun inside => absurd rfl inside.2⟩
    | step member reaches =>
      obtain ⟨opened, below⟩ := WellFormed.reaches reaches (shape.entry member)
      rw [below.isLeafNode_iff]
      exact ⟨fun empty => ⟨empty, by simp⟩, fun inside => inside.1⟩

/-- The nodes of an index that have children are well formed, with a subterm open. -/
theorem Shaped.inner_wellFormed {index : TmpIndex} (shaped : index.Shaped) {path : EncodedFormula} {node : TmpIndexNode}
    (reaches : Reaches index.root path node) (inner : node.children ≠ []) : ∃ base, WellFormed (base + 1) node := by
  rcases shaped with new | shape
  · rw [new] at reaches
    cases reaches with
    | here => exact absurd rfl inner
    | step member => cases member
  · obtain ⟨opened, below⟩ := WellFormed.reaches reaches shape
    cases below with
    | leaf => exact absurd rfl inner
    | @inner base _ nonempty sorted entries => exact ⟨base, .inner nonempty sorted entries⟩

namespace Grown

variable {formulas : List EncodedFormula} {index : TmpIndex}

/-- An id that the counter gives out next is new, until it has gone round. -/
theorem nextId_notMem (grown : Grown formulas index) (few : index.leaves.length < 2 ^ 32) :
    ∀ entry ∈ index.leaves, entry.2.id ≠ (index.nextId + 1) % 2 ^ 32 := by
  intro entry member same
  obtain ⟨start, counter, ids⟩ := grown.ids_perm
  obtain ⟨k, inRange, idEq⟩ := List.mem_map.mp (ids.subset (List.mem_map_of_mem member))
  rw [List.mem_range] at inRange
  omega

/-- Once the counter has gone round, the id that it gives out next is in use. -/
theorem nextId_mem (grown : Grown formulas index) (many : 2 ^ 32 ≤ index.leaves.length) :
    ∃ entry ∈ index.leaves, entry.2.id = (index.nextId + 1) % 2 ^ 32 := by
  obtain ⟨start, counter, ids⟩ := grown.ids_perm
  have given : (index.nextId + 1) % 2 ^ 32 ∈ idsFrom start index.leaves.length := by
    refine List.mem_map.mpr ⟨index.leaves.length - 2 ^ 32, List.mem_range.mpr (by omega), ?_⟩
    omega
  exact List.mem_map.mp (ids.mem_iff.mpr given)

/-- The paths to leaf nodes are the formulas that were inserted. -/
theorem leafPaths (grown : Grown formulas index) (path : EncodedFormula) :
    (∃ node, Reaches index.root path node ∧ node.IsLeafNode) ↔ path ∈ formulas := by
  rw [← grown.leafAt_isSome, Option.isSome_iff_exists]
  constructor
  · rintro ⟨node, reaches, isLeaf⟩
    obtain ⟨leaf, found⟩ := Option.isSome_iff_exists.mp isLeaf
    exact ⟨leaf, grown.shaped.mem_leaves.mp ((reaches_leaf_iff path).mpr ⟨node, reaches, found⟩)⟩
  · rintro ⟨leaf, stored⟩
    obtain ⟨node, reaches, found⟩ := (reaches_leaf_iff path).mp (grown.shaped.mem_leaves.mpr stored)
    exact ⟨node, reaches, by rw [IsLeafNode, found]; rfl⟩

/-- Below every edge there is an inserted formula. -/
theorem exists_formula (grown : Grown formulas index) {path : EncodedFormula} {node : TmpIndexNode}
    (reaches : Reaches index.root path node) {token : EncodedToken} (member : token ∈ node.children.map Prod.fst) :
    ∃ rest, path ++ token :: rest ∈ formulas := by
  obtain ⟨⟨token, next⟩, inside, rfl⟩ := List.mem_map.mp member
  obtain ⟨base, shape⟩ := grown.shaped.inner_wellFormed reaches (List.ne_nil_of_mem inside)
  obtain ⟨rest, last, below, isLeaf⟩ := (shape.entry inside).exists_leafNode
  have edge := @Reaches.step _ _ (token, next) _ inside below
  exact ⟨rest, (grown.leafPaths _).mp ⟨last, reaches.append edge, isLeaf⟩⟩

/-- There are as many leaves as different formulas. -/
theorem length_leaves (grown : Grown formulas index) : index.leaves.length = formulas.toFinset.card := by
  rw [← List.length_map Prod.fst, ← List.toFinset_card_of_nodup grown.shaped.leaves_nodup]
  congr 1
  ext path
  rw [List.mem_toFinset, List.mem_toFinset, ← grown.leafAt_isSome, List.mem_map, Option.isSome_iff_exists]
  constructor
  · rintro ⟨⟨_, leaf⟩, member, rfl⟩
    exact ⟨leaf, grown.shaped.mem_leaves.mp member⟩
  · rintro ⟨leaf, stored⟩
    exact ⟨(path, leaf), grown.shaped.mem_leaves.mpr stored, rfl⟩

/-- **One more insertion.** -/
theorem insertData_next (grown : Grown formulas index) {formula : EncodedFormula} (complete : formula.IsPrefixCode) :
    ∃ index' leaf, index.insertData formula = some (index', leaf) ∧ Grown (formulas ++ [formula]) index' ∧
      index'.leafAt formula = some leaf ∧ (∀ path, path ≠ formula → index'.leafAt path = index.leafAt path) ∧
      (formula ∈ formulas → index.leafAt formula = some leaf) ∧
      (formula ∉ formulas → index.leafAt formula = none ∧ leaf = ⟨(index.nextId + 1) % 2 ^ 32, 0⟩) := by
  obtain ⟨index', leaf, inserted, _, change, allocated⟩ := insertData_spec grown.shaped complete
  have known := grown.leafAt_isSome formula
  refine ⟨index', leaf, inserted, .insertData grown complete inserted, ?_, ?_, ?_, ?_⟩
  · rw [change, if_pos rfl]
  · intro path other
    rw [change, if_neg other]
  · intro before
    rcases allocated with ⟨stored, _⟩ | ⟨absent, _⟩
    · exact stored
    · have missing := known.mpr before
      rw [absent] at missing
      cases missing
  · intro new
    rcases allocated with ⟨stored, _⟩ | ⟨absent, fresh, next⟩
    · exact absurd (known.mp (by rw [stored]; rfl)) new
    · exact ⟨absent, by rw [fresh, next]⟩

end Grown

/-- `f(f(...f(x)))` with the given number of `f`. -/
def chain (depth : Nat) : EncodedFormula := List.replicate depth (encodedToken 162 1) ++ [encodedToken 163 0]

theorem chain_complete (depth : Nat) : (chain depth).IsPrefixCode := by
  rw [EncodedFormula.isPrefixCode_iff]
  induction depth with
  | zero => decide
  | succ depth ih =>
    rw [chain, List.replicate_succ, List.cons_append, closes_cons]
    exact ih

end TmpIndex

end MathWebSearch
