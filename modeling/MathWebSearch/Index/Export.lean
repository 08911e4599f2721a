/-
**Exporting the index** (`TmpIndex::exportToMemsector` and `_writeChildrenOffsets`).

The export drives a `CallbackIndexIterator` over the index. `onPush` opens a vector of offsets for every
inner node, `onPop` writes the node behind its children and hands its offset to the vector of its parent.

* `emit` — the same as a recursion: the children one after the other, and then the node.
* `foldlM_traceBelow` — the callbacks of the walk below a node do what `emit` does.
* `exportToMemsector_eq` — with enough fuel, the export is `emit` of the root, saved.
-/

import MathWebSearch.Index.AccessorSimulation
import MathWebSearch.Index.Inode
import MathWebSearch.Index.IteratorTrace

namespace MathWebSearch

open TmpIndexNode

namespace TmpIndex

variable (longOffStart : Nat)

/-! ### The code -/

/-- The loop over the children: each is written with its offset relative to the node. -/
def writeEntries (currOffset : Nat) :
    MemsectorWriter → List (EncodedToken × TmpIndexNode) → List Nat → Option MemsectorWriter
  | mswr, [], _ => some mswr
  | _, _ :: _, [] => none
  | mswr, entry :: children, off :: offsets =>
    writeEntries currOffset (Memsector.writeInodeEncodedTokenEntry mswr entry.1
      ((currOffset + 2 ^ 64 - off) % 2 ^ 64)) children offsets

/-- `_writeChildrenOffsets`. -/
def writeChildrenOffsets (mswr : MemsectorWriter) (node : TmpIndexNode) (offsets : List Nat) :
    Option (MemsectorWriter × Nat) := do
  let mswr := Memsector.check mswr (node.children.length = offsets.length)
  let front ← offsets.head?
  let begun := Memsector.writeInodeBegin longOffStart mswr node.children.length front
  let mswr ← writeEntries begun.2 begun.1 node.children offsets
  return (Memsector.writeInodeEnd mswr, begun.2)

/-- What the callbacks change: the writer and `dfsStack`, its top first. -/
structure Exporter where
  mswr : MemsectorWriter
  dfsStack : List (List Nat)

/-- `dfsStack.top().push_back(offset)`. -/
def Exporter.pushBack (self : Exporter) (written : MemsectorWriter × Nat) : Option Exporter :=
  match self.dfsStack with
  | [] => none
  | top :: rest => some ⟨written.1, (top ++ [written.2]) :: rest⟩

/-- The callbacks `onPush` and `onPop`. -/
def Exporter.call (self : Exporter) : IteratorEvent TmpIterator → Option Exporter
  | .onPush iterator => do
    let entry ← iterator.head?
    if 0 < entry.2.children.length then return { self with dfsStack := [] :: self.dfsStack } else return self
  | .onPop iterator => do
    let entry ← iterator.head?
    if 0 < entry.2.children.length then
      match self.dfsStack with
      | [] => none
      | top :: rest =>
        let written ← writeChildrenOffsets longOffStart self.mswr entry.2 top
        Exporter.pushBack ⟨self.mswr, rest⟩ written
    else
      let leaf ← entry.2.leaf
      self.pushBack (Memsector.writeLeaf self.mswr leaf.solutions leaf.id)

/-- One round of the loop of `exportToMemsector`. -/
def exportStep (index : TmpIndex) (fuel : Nat) (state : IndexIterator TmpIndexNode TmpIterator × Exporter) :
    Option ((IndexIterator TmpIndexNode TmpIterator × Exporter) ⊕ Exporter) := do
  let (it, node, events) ← state.1.next tmpIndexAccessor index fuel
  let exporter ← events.foldlM (Exporter.call longOffStart) state.2
  return if node.isSome then .inl (it, exporter) else .inr exporter

/-- `exportToMemsector`: the writer when it is done, and the file. -/
def exportToMemsector (index : TmpIndex) (fuel : Nat) (mswr : MemsectorWriter) :
    Option (MemsectorWriter × List UInt8) := do
  let exporter ← Fuel.loop (exportStep longOffStart index fuel) fuel (.start index.root, ⟨mswr, [[]]⟩)
  match exporter.dfsStack with
  | [] => none
  | top :: rest =>
    let (mswr, rootOffset) ← writeChildrenOffsets longOffStart exporter.mswr index.root top
    let mswr := Memsector.check mswr rest.isEmpty
    return (mswr, Memsector.save mswr rootOffset)

/-! ### The recursion behind it -/

mutual

/-- Writing a node: a leaf, or the children and then the node. -/
def emit : TmpIndexNode → MemsectorWriter → Option (MemsectorWriter × Nat)
  | .mk leaf children, mswr =>
    if children.isEmpty then leaf.map fun leaf => Memsector.writeLeaf mswr leaf.solutions leaf.id
    else do
      let written ← emitOf children mswr []
      writeChildrenOffsets longOffStart written.1 (.mk leaf children) written.2

/-- Writing a list of children; their offsets are added to those given. -/
def emitOf : List (EncodedToken × TmpIndexNode) → MemsectorWriter → List Nat →
    Option (MemsectorWriter × List Nat)
  | [], mswr, offsets => some (mswr, offsets)
  | (_, node) :: rest, mswr, offsets => do
    let written ← emit node mswr
    emitOf rest written.1 (offsets ++ [written.2])

end

theorem emit_leafNode (leaf : TmpLeaf) (mswr : MemsectorWriter) :
    emit longOffStart (leafNode leaf) mswr = some (Memsector.writeLeaf mswr leaf.solutions leaf.id) := by
  rw [leafNode, emit]
  rfl

theorem emit_inner {node : TmpIndexNode} (inner : node.children ≠ []) (mswr : MemsectorWriter) :
    emit longOffStart node mswr = (emitOf longOffStart node.children mswr []).bind fun written =>
      writeChildrenOffsets longOffStart written.1 node written.2 := by
  cases node with
  | mk leaf children =>
    have nonempty : ¬ children.isEmpty = true := fun empty => inner (List.isEmpty_iff.mp empty)
    rw [emit, if_neg nonempty]
    rfl

theorem emitOf_cons (entry : EncodedToken × TmpIndexNode) (rest : List (EncodedToken × TmpIndexNode))
    (mswr : MemsectorWriter) (offsets : List Nat) :
    emitOf longOffStart (entry :: rest) mswr offsets = (emit longOffStart entry.2 mswr).bind fun written =>
      emitOf longOffStart rest written.1 (offsets ++ [written.2]) := by
  rw [emitOf]
  rfl

/-- As many offsets as children are enough. -/
theorem isSome_writeEntries (currOffset : Nat) (children : List (EncodedToken × TmpIndexNode)) :
    ∀ (offsets : List Nat) (mswr : MemsectorWriter), children.length = offsets.length →
      (writeEntries currOffset mswr children offsets).isSome := by
  induction children with
  | nil => intro offsets mswr _; rfl
  | cons entry rest ih =>
    intro offsets mswr same
    cases offsets with
    | nil => cases same
    | cons off offsets => exact ih offsets _ (Nat.succ.inj same)

theorem isSome_writeChildrenOffsets {node : TmpIndexNode} (inner : node.children ≠ []) {offsets : List Nat}
    (same : node.children.length = offsets.length) (mswr : MemsectorWriter) :
    (writeChildrenOffsets longOffStart mswr node offsets).isSome := by
  cases offsets with
  | nil => exact absurd (List.length_eq_zero_iff.mp same) inner
  | cons front rest =>
    let begun := Memsector.writeInodeBegin longOffStart
      (Memsector.check mswr (node.children.length = (front :: rest).length)) node.children.length front
    obtain ⟨written, entries⟩ := Option.isSome_iff_exists.mp
      (isSome_writeEntries begun.2 node.children (front :: rest) begun.1 same)
    have computed : writeChildrenOffsets longOffStart mswr node (front :: rest) =
        some (Memsector.writeInodeEnd written, begun.2) := by
      simp only [writeChildrenOffsets, List.head?_cons, Option.bind_eq_bind, Option.bind_some]
      rw [entries]
      rfl
    rw [computed]
    rfl

/-- **`emit` goes through** on every well-formed node. -/
theorem isSome_emit (node : TmpIndexNode) : ∀ {opened : Nat}, WellFormed opened node →
    ∀ mswr, (emit longOffStart node mswr).isSome := by
  induction node with
  | mk leaf children ih =>
    intro opened shape mswr
    cases shape with
    | leaf leaf => rw [← leafNode, emit_leafNode]; rfl
    | @inner opened _ nonempty _ below =>
      have along : ∀ (entries : List (EncodedToken × TmpIndexNode)), (∀ entry ∈ entries, entry ∈ children) →
          ∀ mswr offsets, ∃ mswr' more, emitOf longOffStart entries mswr offsets = some (mswr', offsets ++ more) ∧
            entries.length = more.length := by
        intro entries
        induction entries with
        | nil => intro _ mswr offsets; exact ⟨mswr, [], by rw [emitOf, List.append_nil], rfl⟩
        | cons entry rest ihRest =>
          intro inside mswr offsets
          have member := inside entry List.mem_cons_self
          obtain ⟨written, first⟩ := Option.isSome_iff_exists.mp (ih entry member (below entry member) mswr)
          obtain ⟨mswr', more, later, same⟩ := ihRest (fun other among => inside other (List.mem_cons_of_mem _ among))
            written.1 (offsets ++ [written.2])
          refine ⟨mswr', written.2 :: more, ?_, by rw [List.length_cons, List.length_cons, same]⟩
          rw [emitOf_cons, first, Option.bind_some, later, List.append_assoc, List.singleton_append]
      obtain ⟨mswr', offsets, written, same⟩ := along children (fun _ member => member) mswr []
      rw [List.nil_append] at written
      have inner : (TmpIndexNode.mk none children).children ≠ [] := nonempty
      rw [emit_inner longOffStart inner, children_mk, written]
      exact isSome_writeChildrenOffsets longOffStart inner same mswr'

/-! ### The callbacks of a walk -/

/-- **The callbacks below a node write its children**, as `emitOf` does, and leave their offsets on top of
the stack. -/
theorem foldlM_traceBelow (node : TmpIndexNode) : ∀ {opened : Nat}, WellFormed (opened + 1) node →
    ∀ (stack : List TmpIterator) (mswr : MemsectorWriter) (top : List Nat) (rest : List (List Nat)),
      (calls (traceBelow node (opened + 1) stack)).foldlM (Exporter.call longOffStart) ⟨mswr, top :: rest⟩ =
        (emitOf longOffStart node.children mswr top).bind fun written =>
          some ⟨written.1, written.2 :: rest⟩ := by
  induction node with
  | mk leaf children ih =>
    intro opened shape stack mswr top rest
    have below : ∀ entry ∈ children, WellFormed (opened + entry.1.arity) entry.2 :=
      fun entry member => shape.entry member
    rw [traceBelow_succ, children_mk]
    clear shape
    -- along the children, each with its push, the walk below it and its pop
    induction children generalizing mswr top with
    | nil => rfl
    | cons entry others ihRest =>
      obtain ⟨token, node⟩ := entry
      have shape : WellFormed (opened + token.arity) node := below (token, node) List.mem_cons_self
      have node_eq : (calls (.call (.onPush ((token, node) :: others)) ::
          (traceBelow node (opened + token.arity) (((token, node) :: others) :: stack) ++
            [.call (.onPop ((token, node) :: others))]))).foldlM (Exporter.call longOffStart)
          ⟨mswr, top :: rest⟩ =
            (emit longOffStart node mswr).bind fun written => some ⟨written.1, (top ++ [written.2]) :: rest⟩ := by
        cases count : opened + token.arity with
        | zero =>
          rw [count] at shape
          obtain ⟨leaf, rfl⟩ := shape.eq_leafNode
          rw [emit_leafNode]
          rfl
        | succ opened' =>
          rw [count] at shape
          have inner : 0 < node.children.length := List.length_pos_iff.mpr shape.children_ne_nil
          have opens : Exporter.call longOffStart ⟨mswr, top :: rest⟩ (.onPush ((token, node) :: others)) =
              some ⟨mswr, [] :: top :: rest⟩ := by
            simp [Exporter.call, inner]
          have closes : ∀ written : MemsectorWriter × List Nat,
              Exporter.call longOffStart ⟨written.1, written.2 :: top :: rest⟩
                (.onPop ((token, node) :: others)) =
              (writeChildrenOffsets longOffStart written.1 node written.2).bind fun written =>
                some ⟨written.1, (top ++ [written.2]) :: rest⟩ := by
            intro written
            simp [Exporter.call, inner, Exporter.pushBack]
          rw [calls_call, calls_append, List.foldlM_cons, opens, Option.bind_eq_bind, Option.bind_some,
            List.foldlM_append, ih (token, node) List.mem_cons_self shape, emit_inner longOffStart
            shape.children_ne_nil, Option.bind_eq_bind, Option.bind_assoc, Option.bind_assoc]
          refine congrArg _ (funext fun written => ?_)
          rw [Option.bind_some, calls_call, calls_nil, List.foldlM_cons, closes, Option.bind_eq_bind]
          cases writeChildrenOffsets longOffStart written.1 node written.2 with
          | none => rfl
          | some written => rfl
      have onward := fun mswr top => ihRest (fun entry member => ih entry (List.mem_cons_of_mem _ member))
        mswr top (fun entry member => below entry (List.mem_cons_of_mem _ member))
      have split : traceOf ((token, node) :: others) opened stack =
          (.call (.onPush ((token, node) :: others)) ::
            (traceBelow node (opened + token.arity) (((token, node) :: others) :: stack) ++
              [.call (.onPop ((token, node) :: others))])) ++ traceOf others opened stack := by
        rw [traceOf]
        simp
      rw [split, calls_append, List.foldlM_append, node_eq, emitOf_cons, Option.bind_eq_bind,
        Option.bind_assoc, Option.bind_assoc]
      refine congrArg _ (funext fun written => ?_)
      rw [Option.bind_some]
      exact onward written.1 (top ++ [written.2])

/-! ### The loop -/

theorem exportStep_mono (index : TmpIndex) : Fuel.FuelMono (exportStep longOffStart index) :=
  fun fuel state => .bind (IndexIterator.next_mono tmpIndexAccessor index fuel state.1) fun _ => .refl _

/-- More fuel does not change a finished export. -/
theorem exportToMemsector_mono (index : TmpIndex) : Fuel.FuelMono (exportToMemsector longOffStart index) :=
  fun fuel mswr => .bind ((exportStep_mono longOffStart index).loop fuel (.start index.root, ⟨mswr, [[]]⟩))
    fun _ => .refl _

/-- **A run of the loop** from a suspended iterator makes the calls of the rest of the walk. -/
theorem leads_of_suspended (index : TmpIndex) : ∀ (length : Nat) {stack : List TmpIterator}
    {walk : List WalkItem} {root : Option TmpIndexNode} {exporter exporter' : Exporter},
    walk.length < length → Suspended 0 stack 0 walk → stack ≠ [] →
    (calls walk).foldlM (Exporter.call longOffStart) exporter = some exporter' →
    Fuel.Leads (exportStep longOffStart index) (⟨stack, 0, root⟩, exporter) fun _ => some (.inr exporter') := by
  intro length
  induction length with
  | zero => intro stack walk root exporter exporter' short; omega
  | succ length ih =>
    intro stack walk root exporter exporter' short suspended nonempty folded
    rcases IndexIterator.next_spec index suspended nonempty root with
      ⟨enough, output, computed, stack', token, node, rest, walk', outputIt, outputNode, _, suspended', split⟩ |
      ⟨events, computed, split⟩
    · rw [split, calls_append, calls_map_call, calls_yield, List.foldlM_append] at folded
      obtain ⟨middle, front, back⟩ := Option.bind_eq_some_iff.mp folded
      have short' : walk'.length < length := by
        rw [split, List.length_append, List.length_cons] at short
        omega
      have first : Fuel.Leads (exportStep longOffStart index) (⟨stack, 0, root⟩, exporter)
          fun _ => some (.inl (⟨((token, node) :: rest) :: stack', 0, root⟩, middle)) := by
        refine .here ⟨enough, fun fuel more => ?_⟩
        have now := IndexIterator.next_of_strict
          ((IndexIterator.next_mono strictAccessor index).le more computed)
        simp only [Nat.cast_zero] at now
        simp [exportStep, now, front, outputNode, outputIt]
      exact first.trans ⟨0, fun _ _ => rfl⟩ (ih short' suspended' (by simp) back)
    · rw [split, calls_map_call] at folded
      refine .here ⟨0, fun fuel _ => ?_⟩
      have now := IndexIterator.next_of_strict (computed fuel)
      simp only [Nat.cast_zero] at now
      simp [exportStep, now, folded]

/-- **The export is the recursion**: with enough fuel, it writes the root and saves the file. -/
theorem exportToMemsector_eq {index : TmpIndex} (shape : WellFormed 1 index.root) (mswr : MemsectorWriter) :
    ∃ written : MemsectorWriter × Nat, emit longOffStart index.root mswr = some written ∧
      ∃ enough, ∀ fuel, enough ≤ fuel → exportToMemsector longOffStart index fuel mswr =
        some (written.1, Memsector.save written.1 written.2) := by
  obtain ⟨written, whole⟩ := Option.isSome_iff_exists.mp (isSome_emit longOffStart index.root shape mswr)
  refine ⟨written, whole, ?_⟩
  have inner := shape.children_ne_nil
  rw [emit_inner longOffStart inner, Option.bind_eq_some_iff] at whole
  obtain ⟨⟨mswr', offsets⟩, children, last⟩ := whole
  have folded := foldlM_traceBelow longOffStart index.root shape [] mswr [] []
  rw [children, Option.bind_some] at folded
  obtain ⟨enough, output, computed, stack, token, node, rest, walk, outputIt, outputNode, _, suspended, split⟩ :=
    @IndexIterator.next_start index 0 index.root shape
  rw [split, calls_append, calls_map_call, calls_yield, List.foldlM_append] at folded
  obtain ⟨middle, front, back⟩ := Option.bind_eq_some_iff.mp folded
  have first : Fuel.Leads (exportStep longOffStart index) (.start index.root, ⟨mswr, [[]]⟩)
      fun _ => some (.inl (⟨((token, node) :: rest) :: stack, 0, some index.root⟩, middle)) := by
    refine .here ⟨enough, fun fuel more => ?_⟩
    have now := IndexIterator.next_of_strict
      ((IndexIterator.next_mono strictAccessor index).le more computed)
    simp [exportStep, now, front, outputNode, outputIt]
  obtain ⟨enough', looped⟩ := (first.trans ⟨0, fun _ _ => rfl⟩
    (leads_of_suspended longOffStart index _ (Nat.lt_succ_self _) suspended (by simp) back)).loop_eq
      (exportStep_mono longOffStart index)
  refine ⟨enough', fun fuel more => ?_⟩
  have checked : ∀ mswr : MemsectorWriter, Memsector.check mswr true = mswr := by
    intro mswr
    simp [Memsector.check]
  simp only [exportToMemsector, looped fuel more, Option.bind_eq_bind, Option.bind_some, last]
  simp [checked]

end TmpIndex

end MathWebSearch
