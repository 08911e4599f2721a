/-
**The size of an export** (`TmpIndex::computeMemsectorSize`).

The size is computed in a walk of its own, which adds up the sizes of the records that are popped, and that of the root.
The sizes are of type `uint32_t`, which the tokens of a node keep small enough: there are `2 ^ 24` of each arity, and the
trees below those of a high arity are large.

* `foldlM_popped` — the calls of the walk below a node add up the records below it.
* `children_lt` — in an image below `2 ^ 34` bytes no node has `2 ^ 29` children.
* `computeMemsectorSize_exact` — **the size is the one in the header** of the exported file.
-/

import MathWebSearch.Index.HarvestLoading
import MathWebSearch.Index.Layout

namespace MathWebSearch

open TmpIndexNode Memsector

namespace TmpIndex

/-! ### The records -/

mutual

/-- A node and all below it. -/
def nodes : TmpIndexNode → List TmpIndexNode
  | .mk leaf children => .mk leaf children :: nodesOf children

/-- The nodes of a list of children. -/
def nodesOf : List (EncodedToken × TmpIndexNode) → List TmpIndexNode
  | [] => []
  | (_, node) :: rest => nodes node ++ nodesOf rest

end

/-- The bytes of the record of a node: a leaf, or an inner node with short offsets. -/
def recordSize (node : TmpIndexNode) : Nat := if node.children = [] then 8 else 8 + 8 * node.children.length

theorem recordSize_eq (node : TmpIndexNode) : recordSize node = 8 + 8 * node.children.length := by
  rw [recordSize]
  split_ifs with flat
  · rw [flat]
    rfl
  · rfl

theorem sum_nodesOf {children : List (EncodedToken × TmpIndexNode)}
    (each : ∀ entry ∈ children, ((nodes entry.2).map recordSize).sum = imageSize entry.2) :
    ((nodesOf children).map recordSize).sum = imageSizeOf children := by
  induction children with
  | nil => rw [nodesOf, imageSizeOf]; rfl
  | cons entry rest ih =>
    rw [List.forall_mem_cons] at each
    rw [nodesOf, imageSizeOf_cons, List.map_append, List.sum_append, each.1, ih each.2]

/-- The records of all nodes, each counted once. -/
theorem sum_nodes (node : TmpIndexNode) : ((nodes node).map recordSize).sum = imageSize node := by
  induction node with
  | mk leaf children ih =>
    rw [nodes, List.map_cons, List.sum_cons, sum_nodesOf ih, recordSize_eq, imageSize, children_mk]

/-! ### Nodes are not too wide -/

/-- Below a node with open subterms there are as many inner nodes, one below the other. -/
theorem imageSize_ge {opened : Nat} {node : TmpIndexNode} (shape : WellFormed opened node) :
    8 + 16 * opened ≤ imageSize node := by
  induction shape with
  | leaf leaf => rw [leafNode, imageSize]; omega
  | @inner opened children nonempty _ _ ih =>
    obtain ⟨entry, rest, rfl⟩ := List.exists_cons_of_ne_nil nonempty
    have first := ih entry List.mem_cons_self
    rw [imageSize, imageSizeOf_cons, List.length_cons]
    omega

/-- Different tokens of an arity below 16 are at most `2 ^ 28`. -/
theorem length_low_le {tokens : List EncodedToken} (nodup : tokens.Nodup) (low : ∀ token ∈ tokens, token.arity < 16) :
    tokens.length ≤ 2 ^ 28 := by
  have numbers : (tokens.map fun token => token.arity + 16 * token.id).Nodup := by
    refine List.Nodup.map_on (fun token member token' member' same => ?_) nodup
    have lower := low token member
    have lower' := low token' member'
    ext
    · omega
    · omega
  have inside : tokens.map (fun token => token.arity + 16 * token.id) ⊆ List.range (2 ^ 28) := by
    intro number member
    obtain ⟨token, among, rfl⟩ := List.mem_map.mp member
    have lower := low token among
    have short := token.id_lt
    rw [List.mem_range]
    omega
  have least := (List.subperm_of_subset numbers inside).length_le
  rwa [List.length_map, List.length_range] at least

theorem count_high_le {children : List (EncodedToken × TmpIndexNode)}
    (each : ∀ entry ∈ children, 8 + 16 * entry.1.arity ≤ imageSize entry.2) :
    264 * children.countP (fun entry => decide (16 ≤ entry.1.arity)) ≤ imageSizeOf children := by
  induction children with
  | nil => exact le_rfl
  | cons entry rest ih =>
    rw [List.forall_mem_cons] at each
    have later := ih each.2
    rw [imageSizeOf_cons, List.countP_cons]
    have here := each.1
    split_ifs with high
    · have arity := of_decide_eq_true high
      omega
    · omega

/-- **In an image below `2 ^ 34` bytes no node has `2 ^ 29` children**, one short of which its record fits. -/
theorem children_lt {opened : Nat} {node : TmpIndexNode} (shape : WellFormed (opened + 1) node)
    (small : imageSizeOf node.children < 2 ^ 34) : node.children.length < 2 ^ 29 - 1 := by
  have each : ∀ entry ∈ node.children, 8 + 16 * entry.1.arity ≤ imageSize entry.2 := fun entry member =>
    le_trans (by omega) (imageSize_ge (shape.entry member))
  have high := count_high_le each
  have low : (node.children.filter fun entry => !decide (16 ≤ entry.1.arity)).length ≤ 2 ^ 28 := by
    have nodup : ((node.children.filter fun entry => !decide (16 ≤ entry.1.arity)).map Prod.fst).Nodup :=
      (shape.sorted.nodup).sublist (List.filter_sublist.map Prod.fst)
    rw [← List.length_map (f := Prod.fst)]
    refine length_low_le nodup fun token member => ?_
    obtain ⟨entry, among, rfl⟩ := List.mem_map.mp member
    have kept := (List.mem_filter.mp among).2
    rw [Bool.not_eq_true', decide_eq_false_iff_not] at kept
    omega
  have both := List.length_eq_countP_add_countP (fun entry => decide (16 ≤ entry.1.arity)) (l := node.children)
  rw [← List.countP_eq_length_filter] at low
  have same : node.children.countP (fun entry => !decide (16 ≤ entry.1.arity)) =
      node.children.countP (fun entry => decide ¬ (decide (16 ≤ entry.1.arity) = true)) := by
    congr 1
    funext entry
    cases decide (16 ≤ entry.1.arity) <;> rfl
  omega

/-! ### The walk -/

/-- A record that fits is added with all of its bytes. -/
theorem addSize_onPop {token : EncodedToken} {node : TmpIndexNode} {rest : TmpIterator} {size : Nat}
    (few : node.children.length < 2 ^ 29 - 1) :
    addSize size (.onPop ((token, node) :: rest)) = some ((size + (8 + 8 * node.children.length)) % 2 ^ 64) := by
  have count : node.children.length % 2 ^ 32 = node.children.length := Nat.mod_eq_of_lt (by omega)
  have bytes : memsectorInodeSize node.children.length = 8 + 8 * node.children.length := by
    unfold memsectorInodeSize
    omega
  simp only [addSize, List.head?_cons, Option.bind_eq_bind, Option.bind_some, count, bytes, Option.pure_def]
  split_ifs with inner
  · rfl
  · rw [Nat.eq_zero_of_not_pos inner]
    rfl

/-- **The calls of the walk below a node** add up the records below it. -/
theorem foldlM_popped (node : TmpIndexNode) : ∀ {opened : Nat}, WellFormed (opened + 1) node →
    imageSizeOf node.children < 2 ^ 34 → ∀ (stack : List TmpIterator) (size : Nat), size < 2 ^ 64 →
      (calls (traceBelow node (opened + 1) stack)).foldlM addSize size =
        some ((size + imageSizeOf node.children) % 2 ^ 64) := by
  induction node with
  | mk leaf children ih =>
    intro opened shape small stack size fits
    have below : ∀ entry ∈ children, WellFormed (opened + entry.1.arity) entry.2 := fun entry member =>
      shape.entry member
    rw [traceBelow_succ]
    rw [children_mk] at small ⊢
    clear shape
    -- along the children, each with its push, the walk below it and its pop
    induction children generalizing size with
    | nil =>
      rw [traceOf, calls_nil, imageSizeOf, Nat.add_zero, Nat.mod_eq_of_lt fits]
      rfl
    | cons entry others ihRest =>
      obtain ⟨token, node⟩ := entry
      rw [List.forall_mem_cons] at below
      replace small : imageSize node + imageSizeOf others < 2 ^ 34 := by rwa [imageSizeOf_cons] at small
      have inside := imageSize_eq node
      have first : (calls (.call (.onPush ((token, node) :: others)) ::
          (traceBelow node (opened + token.arity) (((token, node) :: others) :: stack) ++
            [.call (.onPop ((token, node) :: others))]))).foldlM addSize size =
          some ((size + imageSize node) % 2 ^ 64) := by
        rw [calls_call, calls_append, List.foldlM_cons]
        show (calls _ ++ calls _).foldlM addSize size = _
        rw [List.foldlM_append]
        have shape := below.1
        cases count : opened + token.arity with
        | zero =>
          rw [count] at shape
          obtain ⟨leaf, rfl⟩ := shape.eq_leafNode
          rw [traceBelow_zero, imageSize_eq]
          have few : (leafNode leaf).children.length < 2 ^ 29 - 1 := Nat.zero_lt_of_lt (Nat.lt_succ_self _)
          exact @addSize_onPop token _ others size few
        | succ opened' =>
          rw [count] at shape
          have fitsBelow : imageSizeOf node.children < 2 ^ 34 := by omega
          have walked := ih (token, node) List.mem_cons_self shape fitsBelow (((token, node) :: others) :: stack) size fits
          rw [walked]
          show addSize _ (.onPop ((token, node) :: others)) >>= _ = _
          rw [addSize_onPop (children_lt shape fitsBelow), Nat.mod_add_mod, inside, Nat.add_comm (8 + _), Nat.add_assoc]
          rfl
      have later := ihRest (fun entry member => ih entry (List.mem_cons_of_mem _ member)) (by omega)
        ((size + imageSize node) % 2 ^ 64) (Nat.mod_lt _ (by decide)) below.2
      have split : traceOf ((token, node) :: others) opened stack =
          (.call (.onPush ((token, node) :: others)) ::
            (traceBelow node (opened + token.arity) (((token, node) :: others) :: stack) ++
              [.call (.onPop ((token, node) :: others))])) ++ traceOf others opened stack := by
        rw [traceOf]
        simp
      rw [split, calls_append, List.foldlM_append, first, imageSizeOf_cons]
      show (calls (traceOf others opened stack)).foldlM addSize _ = _
      rw [later, Nat.mod_add_mod, Nat.add_assoc]

/-- The size is that of the image. -/
theorem computeMemsectorSize_eq {index : TmpIndex} (shape : WellFormed 1 index.root)
    (small : imageSizeOf index.root.children < 2 ^ 34) :
    ∃ enough, ∀ fuel, enough ≤ fuel →
      index.computeMemsectorSize tmpIndexAccessor fuel = some (imageSize index.root) := by
  have walked := foldlM_popped index.root shape small [] 0 (by decide)
  obtain ⟨enough, found, _, run⟩ := enumerate_leaves shape
  refine ⟨enough, fun fuel more => ?_⟩
  have enumerated := IndexIterator.enumerate_of_strict fuel (run fuel more)
  have few := children_lt shape small
  have whole := imageSize_eq index.root
  have count : index.root.children.length % 2 ^ 32 = index.root.children.length := Nat.mod_eq_of_lt (by omega)
  have bytes : memsectorInodeSize index.root.children.length = 8 + 8 * index.root.children.length := by
    unfold memsectorInodeSize
    omega
  simp only [computeMemsectorSize, enumerated, walked, Option.bind_eq_bind, Option.bind_some, count, bytes,
    Option.pure_def]
  congr 1
  omega

/-- **The index is written**: its records, from the start of the image on. -/
theorem exported_emitted {index : TmpIndex} (shape : WellFormed 1 index.root) {written : MemsectorWriter × Nat}
    (emitted : emit memsectorLongOffStart index.root create = some written)
    (starts : StartsLow memsectorLongOffStart index.root.children create) :
    Emitted memsectorLongOffStart (fun _ => True) (savedHeader written.1 written.2).bytes index.root create
        written.1 written.2 ∧ written.1.data.length = imageSize index.root := by
  have spec : Emitted memsectorLongOffStart (fun _ => True) (savedHeader written.1 written.2).bytes index.root create
      written.1 written.2 :=
    emit_spec le_rfl (MemsectorHeader.length_bytes _) index.root shape (fun _ _ => trivial) idle_create emitted starts
  have size := spec.size rfl
  rw [position, position, create_data, List.length_nil] at size
  exact ⟨spec, by omega⟩

/-- **The size estimate is exact.** For every index that complete prefix codes were inserted into, and an exported file
below `2 ^ 34` bytes, `computeMemsectorSize` gives the size that the header of the file states, and that is the sum of
the records of all nodes, each counted once. -/
theorem computeMemsectorSize_exact {index : TmpIndex} {formulas : List EncodedFormula} (grown : Grown formulas index)
    (nonempty : ¬ index.IsEmpty) :
    ∃ enough mswr file, (∀ fuel, enough ≤ fuel →
        exportToMemsector memsectorLongOffStart index fuel create = some (mswr, file)) ∧
      (file.length < 2 ^ 34 → ∃ header, MemsectorHeader.read file = some header ∧
        (∀ fuel, enough ≤ fuel → index.computeMemsectorSize tmpIndexAccessor fuel = some header.indexSize) ∧
        header.indexSize = ((nodes index.root).map recordSize).sum) := by
  have shape : WellFormed 1 index.root := by
    rcases grown.shaped with new | shape
    · exact absurd (by rw [IsEmpty, new]; rfl) nonempty
    · exact shape
  obtain ⟨written, emitted, enough, computed⟩ := exportToMemsector_eq memsectorLongOffStart shape create
  by_cases small : (save written.1 written.2).length < 2 ^ 34
  · have starts : StartsLow memsectorLongOffStart index.root.children create :=
      Or.inl fun below children => lt_of_le_of_lt (position_emitOf_le emitted children) (by rwa [length_save] at small)
    obtain ⟨spec, written_eq⟩ := exported_emitted shape emitted starts
    have few := starts.imageSizeOf_lt shape.children_ne_nil emitted
    obtain ⟨walked, sized⟩ := computeMemsectorSize_eq shape (lt_of_le_of_lt (Nat.le_add_left _ _) few)
    have stated := indexSize_savedHeader written.1 written.2 (by omega)
    have start := spec.start rfl
    rw [length_save] at small
    have header : MemsectorHeader.read (save written.1 written.2) = some (savedHeader written.1 written.2) := by
      refine MemsectorHeader.read_bytes _ _ (show memsectorMagic < 2 ^ 32 by decide)
        (show memsectorVersion < 2 ^ 32 by decide) ?_ (show written.2 < 2 ^ 64 by omega)
      rw [stated]
      omega
    refine ⟨max enough walked, written.1, _, fun fuel more => computed fuel (le_of_max_le_left more), fun _ =>
      ⟨_, header, fun fuel more => ?_, ?_⟩⟩
    · rw [stated, written_eq]
      exact sized fuel (le_of_max_le_right more)
    · rw [stated, written_eq, sum_nodes]
  · exact ⟨enough, written.1, _, computed, fun below => absurd below small⟩

/-- The index of `f(x)`: its file of 68 bytes has a header, two inner nodes and a leaf. -/
theorem computeMemsectorSize_exact_chain : ∃ index enough mswr file header, Grown [chain 1] index ∧
    (∀ fuel, enough ≤ fuel → exportToMemsector memsectorLongOffStart index fuel create = some (mswr, file)) ∧
    file.length = 68 ∧ MemsectorHeader.read file = some header ∧ header.indexSize = 40 ∧
    ∀ fuel, enough ≤ fuel → index.computeMemsectorSize tmpIndexAccessor fuel = some 40 := by
  let inner : TmpIndexNode := .mk none [(encodedToken 163 0, leafNode ⟨1, 0⟩)]
  let index : TmpIndex := ⟨.mk none [(encodedToken 162 1, inner)], 1⟩
  have inserted : (TmpIndex.empty 0).insertData (chain 1) = some (index, ⟨1, 0⟩) := by rfl
  have grown : Grown [chain 1] index := .insertData (.empty 0) (chain_complete 1) inserted
  have nonempty : ¬ index.IsEmpty := List.cons_ne_nil _ _
  obtain ⟨enough, mswr, file, exported, exact⟩ := computeMemsectorSize_exact grown nonempty
  have shape : WellFormed 1 index.root := grown.shaped.resolve_left fun new =>
    nonempty (congrArg TmpIndexNode.children new)
  have starts : StartsLow memsectorLongOffStart index.root.children create := .inr ⟨rfl, by decide⟩
  obtain ⟨written, emitted, enough', saved⟩ := exportToMemsector_eq memsectorLongOffStart shape create
  have same : file = save written.1 written.2 := congrArg Prod.snd <| Option.some.inj <|
    (exported _ (le_max_left _ _)).symm.trans (saved (max enough enough') (le_max_right _ _))
  have size : file.length = 68 := by
    rw [same, length_save, (exported_emitted shape emitted starts).2]
    rfl
  have small : file.length < 2 ^ 34 := by
    rw [size]
    decide
  obtain ⟨header, read, computed, counted⟩ := exact small
  have forty : header.indexSize = 40 := counted
  exact ⟨index, enough, mswr, file, header, grown, exported, size, read, forty, forty ▸ computed⟩

end TmpIndex

end MathWebSearch
