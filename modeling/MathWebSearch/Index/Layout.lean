/-
**Where the exported nodes are** (the image that `exportToMemsector` leaves behind).

* `Idle` — the state of the writer between two nodes: aligned, no node in progress, every assertion held.
* `writeChildrenOffsets_spec` — writing an internal node from an idle writer, whatever its offsets are.
* `Rep` — the image carries a node of the index at an address, with everything below it.
* `emit_spec` — as long as the file stays below `2 ^ 34` bytes, `emit` keeps the writer idle and leaves the
  node represented where it says.
* `exported_spec` — the whole export: the assertions held, the file loads, and the root is represented.
-/

import MathWebSearch.Index.Export

namespace MathWebSearch

open TmpIndexNode

/-! ### The writer between two nodes -/

namespace Memsector

/-- The position of the writer in the file. -/
def position (mswr : MemsectorWriter) : Nat := MemsectorHeader.size + mswr.data.length

/-- **The writer between two nodes.** -/
structure Idle (mswr : MemsectorWriter) : Prop where
  promised : mswr.entriesPromised = 0
  delivered : mswr.entriesDelivered = 0
  aligned : position mswr % memsectorAllocUnit = 0
  held : mswr.held = true

theorem idle_create : Idle create := ⟨rfl, rfl, rfl, rfl⟩

/-- The current offset, counted in units and truncated to 32 bits. -/
def currentOffset (mswr : MemsectorWriter) : Nat := position mswr / memsectorAllocUnit % 2 ^ 32

theorem offset_mod (mswr : MemsectorWriter) : mswr.offset % memsectorAllocUnit = position mswr % memsectorAllocUnit := by
  rw [mswr.offset_eq, ← position, memsectorAllocUnit]
  omega

theorem offset_div (mswr : MemsectorWriter) :
    mswr.offset / memsectorAllocUnit % 2 ^ 32 = currentOffset mswr := by
  rw [mswr.offset_eq, ← position, currentOffset, memsectorAllocUnit]
  omega

/-- Writing a leaf from an idle writer. -/
theorem writeLeaf_spec {mswr : MemsectorWriter} (idle : Idle mswr) (numHits formulaId : Nat) :
    Idle (writeLeaf mswr numHits formulaId).1 ∧
      (writeLeaf mswr numHits formulaId).1.data = mswr.data ++ leafBytes numHits formulaId ∧
      (writeLeaf mswr numHits formulaId).2 = currentOffset mswr := by
  have aligned := idle.aligned
  refine ⟨⟨idle.promised, idle.delivered, ?_, ?_⟩, rfl, offset_div mswr⟩
  · simp only [position, writeLeaf, write_data, check_data, getCurrentOffset, List.length_append,
      length_leafBytes]
    rw [position, memsectorAllocUnit] at aligned
    rw [memsectorAllocUnit]
    omega
  · simp [writeLeaf, getCurrentOffset, idle.held, idle.promised, idle.delivered, offset_mod, idle.aligned]

end Memsector

namespace TmpIndex

open Memsector

/-- The entries of a node: its tokens with the relative offsets of the children. -/
def entriesOf (children : List (EncodedToken × TmpIndexNode)) (offsets : List Nat) : List (EncodedToken × Nat) :=
  (children.map Prod.fst).zip offsets

theorem length_entriesOf {children : List (EncodedToken × TmpIndexNode)} {offsets : List Nat}
    (same : offsets.length = children.length) : (entriesOf children offsets).length = children.length := by
  rw [entriesOf, List.length_zip, List.length_map, same, min_self]

theorem map_fst_entriesOf {children : List (EncodedToken × TmpIndexNode)} {offsets : List Nat}
    (same : offsets.length = children.length) :
    (entriesOf children offsets).map Prod.fst = children.map Prod.fst := by
  rw [entriesOf, List.map_fst_zip]
  rw [List.length_map, same]

theorem getElem?_entriesOf {children : List (EncodedToken × TmpIndexNode)} {offsets : List Nat} {number : Nat}
    {entry : EncodedToken × TmpIndexNode} {off : Nat} (atChild : children[number]? = some entry)
    (atOffset : offsets[number]? = some off) : (entriesOf children offsets)[number]? = some (entry.1, off) := by
  rw [entriesOf, List.getElem?_zip_eq_some, List.getElem?_map, atChild]
  exact ⟨rfl, atOffset⟩

/-- The relative offset of a child, a 64-bit difference. -/
def relOff (currOffset off : Nat) : Nat := (currOffset + 2 ^ 64 - off) % 2 ^ 64

/-- **Writing the entries of a node** that has been begun. -/
theorem writeEntries_spec (currOffset : Nat) (children : List (EncodedToken × TmpIndexNode)) :
    ∀ {offsets : List Nat} {mswr : MemsectorWriter}, offsets.length = children.length →
      mswr.entriesDelivered + children.length = mswr.entriesPromised → mswr.entriesPromised < 2 ^ 32 →
      (∀ off ∈ offsets, relOff currOffset off ≠ 0) → mswr.held = true →
      ∃ mswr', writeEntries currOffset mswr children offsets = some mswr' ∧
        mswr'.data = mswr.data ++ (entriesOf children (offsets.map (relOff currOffset))).flatMap
          (entryBytes mswr.hasLongOffsets) ∧
        mswr'.entriesPromised = mswr.entriesPromised ∧ mswr'.entriesDelivered = mswr.entriesPromised ∧
        mswr'.held = true := by
  induction children with
  | nil =>
    intro offsets mswr same count few _ held
    obtain rfl := List.length_eq_zero_iff.mp same
    refine ⟨mswr, rfl, ?_, rfl, count, held⟩
    rw [entriesOf, List.map_nil, List.zip_nil_left, List.flatMap_nil, List.append_nil]
  | cons entry rest ih =>
    intro offsets mswr same count few nonnull held
    obtain ⟨off, offsets, rfl⟩ := List.exists_cons_of_ne_nil
      (show offsets ≠ [] by rintro rfl; cases same)
    rw [List.length_cons] at count
    have small : (mswr.entriesDelivered + 1) % 2 ^ 32 = mswr.entriesDelivered + 1 :=
      Nat.mod_eq_of_lt (by omega)
    have less : mswr.entriesDelivered < mswr.entriesPromised := by omega
    have here := nonnull off List.mem_cons_self
    have written : (writeInodeEncodedTokenEntry mswr entry.1 (relOff currOffset off)).held = true := by
      simp [writeInodeEncodedTokenEntry, held, less, here]
    obtain ⟨mswr', computed, data, promised, delivered, held'⟩ := @ih offsets
      (writeInodeEncodedTokenEntry mswr entry.1 (relOff currOffset off)) (Nat.succ.inj same)
      (by simp only [writeInodeEncodedTokenEntry, write_entriesDelivered, check_entriesDelivered,
            write_entriesPromised, check_entriesPromised, small]
          omega)
      few (fun other member => nonnull other (List.mem_cons_of_mem _ member)) written
    refine ⟨mswr', computed, ?_, promised, delivered, held'⟩
    rw [data]
    simp [writeInodeEncodedTokenEntry, entriesOf]

/-- **Writing an internal node** from an idle writer, whatever its offsets are: it stays idle, and the node
is behind what was there. -/
theorem writeChildrenOffsets_spec (longOffStart : Nat) {mswr : MemsectorWriter} (idle : Idle mswr)
    {node : TmpIndexNode} {front : Nat} {rest : List Nat}
    (same : (front :: rest).length = node.children.length) (few : node.children.length < 2 ^ 32)
    (nonnull : ∀ off ∈ front :: rest, relOff (currentOffset mswr) off ≠ 0) :
    ∃ mswr', writeChildrenOffsets longOffStart mswr node (front :: rest) =
        some (mswr', currentOffset mswr) ∧ Idle mswr' ∧
      mswr'.data = mswr.data ++
        (inodeBytes (inodeType (decide (longOffStart ≤ relOff (currentOffset mswr) front)))
            node.children.length ++
          (entriesOf node.children ((front :: rest).map (relOff (currentOffset mswr)))).flatMap
            (entryBytes (decide (longOffStart ≤ relOff (currentOffset mswr) front)))) := by
  let checked := Memsector.check mswr (node.children.length = (front :: rest).length)
  let begun := writeInodeBegin longOffStart checked node.children.length front
  have offset : begun.2 = currentOffset mswr := offset_div mswr
  have long : begun.1.hasLongOffsets = decide (longOffStart ≤ relOff (currentOffset mswr) front) := by
    rw [← offset]
    rfl
  have promised : begun.1.entriesPromised = node.children.length := Nat.mod_eq_of_lt few
  have delivered : begun.1.entriesDelivered = 0 := idle.delivered
  have held : begun.1.held = true := by
    simp [begun, checked, writeInodeBegin, getCurrentOffset, idle.held, idle.promised, idle.delivered, offset_mod,
      idle.aligned, same]
  have header : begun.1.data = mswr.data ++ inodeBytes (inodeType begun.1.hasLongOffsets)
      node.children.length := by
    have size : node.children.length % 2 ^ 32 = node.children.length := Nat.mod_eq_of_lt few
    rw [← size]
    rfl
  obtain ⟨written, computed, data, promised', delivered', held'⟩ := writeEntries_spec begun.2 node.children
    same (by rw [promised, delivered, Nat.zero_add]) (by rw [promised]; exact few)
    (by rw [offset]; exact nonnull) held
  rw [offset, long] at data
  rw [long] at header
  refine ⟨writeInodeEnd written, ?_, ⟨rfl, rfl, ?_, ?_⟩, ?_⟩
  · simp only [writeChildrenOffsets, List.head?_cons, Option.bind_eq_bind, Option.bind_some]
    rw [show writeEntries _ _ node.children (front :: rest) = some written from computed]
    exact congrArg (fun off => some (writeInodeEnd written, off)) offset
  · have aligned := idle.aligned
    have size : ((entriesOf node.children ((front :: rest).map (relOff (currentOffset mswr)))).flatMap
        (entryBytes (decide (longOffStart ≤ relOff (currentOffset mswr) front)))).length % 4 = 0 := by
      rw [List.length_flatMap, List.map_congr_left fun entry _ => length_entryBytes _ entry, List.map_const',
        List.sum_replicate, smul_eq_mul, offWidth]
      split <;> omega
    simp only [position, writeInodeEnd, check_data, data, header, List.length_append, length_inodeBytes]
    rw [position, memsectorAllocUnit] at aligned
    rw [memsectorAllocUnit]
    omega
  · have some : 0 < node.children.length := by rw [← same]; exact Nat.succ_pos _
    simp [writeInodeEnd, held', promised', delivered', promised, some]
  · rw [show (writeInodeEnd written).data = written.data from rfl, data, header, List.append_assoc]

/-! ### Writing only appends -/

/-- The second writer has everything the first one has written. -/
def Extends (mswr mswr' : MemsectorWriter) : Prop := ∃ more, mswr'.data = mswr.data ++ more

theorem Extends.refl (mswr : MemsectorWriter) : Extends mswr mswr := ⟨[], (List.append_nil _).symm⟩

theorem Extends.trans {first second third : MemsectorWriter} (one : Extends first second)
    (two : Extends second third) : Extends first third := by
  obtain ⟨more, one⟩ := one
  obtain ⟨more', two⟩ := two
  exact ⟨more ++ more', by rw [two, one, List.append_assoc]⟩

theorem Extends.position_le {first second : MemsectorWriter} (extend : Extends first second) :
    position first ≤ position second := by
  obtain ⟨more, data⟩ := extend
  rw [position, position, data, List.length_append]
  omega

/-- Every entry takes at least eight bytes. -/
theorem extends_writeEntries (currOffset : Nat) (children : List (EncodedToken × TmpIndexNode)) :
    ∀ {offsets : List Nat} {mswr mswr' : MemsectorWriter},
      writeEntries currOffset mswr children offsets = some mswr' →
      Extends mswr mswr' ∧ position mswr + 8 * children.length ≤ position mswr' := by
  induction children with
  | nil =>
    intro offsets mswr mswr' computed
    obtain rfl := Option.some.inj computed
    exact ⟨.refl mswr, le_rfl⟩
  | cons entry rest ih =>
    intro offsets mswr mswr' computed
    cases offsets with
    | nil => cases computed
    | cons off offsets =>
      obtain ⟨extend, long⟩ := ih computed
      have here : Extends mswr (writeInodeEncodedTokenEntry mswr entry.1 (relOff currOffset off)) := ⟨_, rfl⟩
      have size : position mswr + 8 ≤
          position (writeInodeEncodedTokenEntry mswr entry.1 (relOff currOffset off)) := by
        simp only [position, writeInodeEncodedTokenEntry, write_data, check_data, List.length_append,
          length_entryBytes, offWidth]
        split <;> omega
      exact ⟨here.trans extend, by rw [List.length_cons]; rw [relOff] at size; omega⟩

theorem extends_writeChildrenOffsets {longOffStart : Nat} {mswr : MemsectorWriter} {node : TmpIndexNode}
    {offsets : List Nat} {written : MemsectorWriter × Nat}
    (computed : writeChildrenOffsets longOffStart mswr node offsets = some written) :
    Extends mswr written.1 ∧ position mswr + (8 + 8 * node.children.length) ≤ position written.1 := by
  obtain ⟨front, _, computed⟩ := Option.bind_eq_some_iff.mp computed
  obtain ⟨mswr', entries, last⟩ := Option.bind_eq_some_iff.mp computed
  obtain rfl := Option.some.inj last
  obtain ⟨extend, long⟩ := extends_writeEntries _ _ entries
  have here : Extends mswr (writeInodeBegin longOffStart
      (Memsector.check mswr (node.children.length = offsets.length)) node.children.length front).1 := ⟨_, rfl⟩
  have start : position (writeInodeBegin longOffStart (Memsector.check mswr
      (node.children.length = offsets.length)) node.children.length front).1 = position mswr + 8 := by
    simp only [writeInodeBegin, getCurrentOffset, position, write_data, check_data, List.length_append,
      length_inodeBytes, Nat.add_assoc]
  exact ⟨here.trans extend, (show position mswr + (8 + 8 * node.children.length) ≤ position mswr' by omega)⟩

mutual

/-- The bytes a node and everything below it take when all offsets are short. -/
def imageSize : TmpIndexNode → Nat
  | .mk _ children => 8 + 8 * children.length + imageSizeOf children

/-- The bytes of a list of children. -/
def imageSizeOf : List (EncodedToken × TmpIndexNode) → Nat
  | [] => 0
  | (_, node) :: rest => imageSize node + imageSizeOf rest

end

theorem imageSize_eq (node : TmpIndexNode) :
    imageSize node = 8 + 8 * node.children.length + imageSizeOf node.children := by
  cases node
  rw [imageSize, children_mk]

theorem imageSizeOf_cons (entry : EncodedToken × TmpIndexNode) (rest : List (EncodedToken × TmpIndexNode)) :
    imageSizeOf (entry :: rest) = imageSize entry.2 + imageSizeOf rest := by
  rw [imageSizeOf]

/-- Every node takes at least eight bytes. -/
theorem length_le_imageSizeOf (children : List (EncodedToken × TmpIndexNode)) :
    8 * children.length ≤ imageSizeOf children := by
  induction children with
  | nil => exact le_rfl
  | cons entry rest ih =>
    rw [imageSizeOf_cons, imageSize_eq, List.length_cons]
    omega

theorem length_leavesOf_le {children : List (EncodedToken × TmpIndexNode)}
    (each : ∀ entry ∈ children, 8 * (TmpIndexNode.leaves entry.2).length ≤ imageSize entry.2) :
    8 * (leavesOf children).length ≤ imageSizeOf children := by
  induction children with
  | nil => exact le_rfl
  | cons entry rest ih =>
    have here := each entry List.mem_cons_self
    have later := ih fun other member => each other (List.mem_cons_of_mem _ member)
    rw [leavesOf, imageSizeOf_cons, List.length_append, List.length_map]
    omega

/-- So does every leaf. -/
theorem length_leaves_le (node : TmpIndexNode) : 8 * (TmpIndexNode.leaves node).length ≤ imageSize node := by
  induction node with
  | mk leaf children ih =>
    have own : (leaf.toList.map fun leaf => (([] : EncodedFormula), leaf)).length ≤ 1 := by
      cases leaf <;> simp
    have below := length_leavesOf_le ih
    rw [TmpIndexNode.leaves, imageSize, List.length_append]
    omega

theorem extends_emitOf {longOffStart : Nat} (entries : List (EncodedToken × TmpIndexNode))
    (each : ∀ entry ∈ entries, ∀ {mswr : MemsectorWriter} {written : MemsectorWriter × Nat},
      emit longOffStart entry.2 mswr = some written → Extends mswr written.1 ∧
        position mswr + imageSize entry.2 ≤ position written.1) :
    ∀ {mswr : MemsectorWriter} {offsets : List Nat} {written : MemsectorWriter × List Nat},
      emitOf longOffStart entries mswr offsets = some written → Extends mswr written.1 ∧
        position mswr + imageSizeOf entries ≤ position written.1 := by
  induction entries with
  | nil =>
    intro mswr offsets written computed
    rw [emitOf] at computed
    obtain rfl := Option.some.inj computed
    exact ⟨.refl _, le_rfl⟩
  | cons entry rest ih =>
    intro mswr offsets written computed
    rw [emitOf_cons, Option.bind_eq_some_iff] at computed
    obtain ⟨first, here, later⟩ := computed
    obtain ⟨extend, long⟩ := each entry List.mem_cons_self here
    obtain ⟨extend', long'⟩ := ih (fun other member => each other (List.mem_cons_of_mem _ member)) later
    refine ⟨extend.trans extend', ?_⟩
    rw [imageSizeOf_cons]
    omega

/-- Writing a node appends at least its short size. -/
theorem extends_emit (longOffStart : Nat) (node : TmpIndexNode) : ∀ {mswr : MemsectorWriter}
    {written : MemsectorWriter × Nat}, emit longOffStart node mswr = some written → Extends mswr written.1 ∧
      position mswr + imageSize node ≤ position written.1 := by
  induction node with
  | mk leaf children ih =>
    intro mswr written computed
    by_cases inner : children = []
    · subst inner
      rw [emit] at computed
      obtain ⟨leaf, rfl, rfl⟩ := Option.map_eq_some_iff.mp computed
      refine ⟨⟨_, rfl⟩, ?_⟩
      show position mswr + 8 ≤ MemsectorHeader.size + (mswr.data ++ leafBytes leaf.solutions leaf.id).length
      rw [List.length_append, length_leafBytes, position, Nat.add_assoc]
    · rw [emit_inner longOffStart (by exact inner), Option.bind_eq_some_iff] at computed
      obtain ⟨below, written, last⟩ := computed
      obtain ⟨extend, long⟩ := extends_emitOf children ih written
      obtain ⟨extend', long'⟩ := extends_writeChildrenOffsets last
      refine ⟨extend.trans extend', ?_⟩
      rw [imageSize]
      rw [children_mk] at long'
      omega

/-- A node is written behind its children. -/
theorem position_emitOf_le {longOffStart : Nat} {node : TmpIndexNode} {mswr : MemsectorWriter}
    {written : MemsectorWriter × Nat} {below : MemsectorWriter × List Nat}
    (computed : emit longOffStart node mswr = some written)
    (children : emitOf longOffStart node.children mswr [] = some below) :
    position below.1 ≤ position written.1 := by
  by_cases inner : node.children = []
  · rw [inner, emitOf] at children
    obtain rfl := Option.some.inj children
    exact (extends_emit longOffStart node computed).1.position_le
  · rw [emit_inner longOffStart inner, children, Option.bind_some] at computed
    exact (extends_writeChildrenOffsets computed).1.position_le

/-! ### Representation -/

/-- **The image carries a node at an address**, with everything below it, the leaves of which are known to have
some property. The offsets of an internal node are relative, counted in units. -/
inductive Rep (known : TmpLeaf → Prop) (image : List UInt8) : TmpIndexNode → Nat → Prop
  | leaf {leaf : TmpLeaf} {address : Nat} : Bytes.Holds image address (leafBytes leaf.solutions leaf.id) →
      known leaf → Rep known image (leafNode leaf) address
  | inner {children : List (EncodedToken × TmpIndexNode)} {address : Nat} (long : Bool) (offsets : List Nat) :
      children ≠ [] → children.length < 2 ^ 31 → offsets.length = children.length →
      HoldsInode image address long (entriesOf children offsets) →
      (∀ off ∈ offsets, 0 < off ∧ 4 * off ≤ address ∧ off < 256 ^ offWidth long) →
      (∀ (number : Nat) (entry : EncodedToken × TmpIndexNode) (off : Nat), children[number]? = some entry →
        offsets[number]? = some off → Rep known image entry.2 (address - 4 * off)) →
      Rep known image (.mk none children) address

variable {known : TmpLeaf → Prop}

theorem Rep.append_right {image : List UInt8} {node : TmpIndexNode} {address : Nat}
    (rep : Rep known image node address) (more : List UInt8) : Rep known (image ++ more) node address := by
  induction rep with
  | leaf holds fits => exact .leaf (holds.append_right more) fits
  | inner long offsets nonempty few same holds bounds _ ih =>
    exact .inner long offsets nonempty few same (Bytes.Holds.append_right holds more) bounds ih

/-- What writing a node has to leave behind: an idle writer, and the node represented behind what was
there before. -/
structure Emitted (longOffStart : Nat) (known : TmpLeaf → Prop) (front : List UInt8) (node : TmpIndexNode)
    (mswr mswr' : MemsectorWriter) (off : Nat) : Prop where
  idle : Idle mswr'
  above : position mswr ≤ 4 * off
  below : 4 * off < position mswr'
  size : longOffStart = 2 ^ 32 → position mswr' = position mswr + imageSize node
  start : longOffStart = 2 ^ 32 → 4 * off = position mswr + imageSizeOf node.children
  bounded : position mswr' < 2 ^ 36
  rep : Rep known (front ++ mswr'.data) node (4 * off)

/-- The same for a list of children. -/
structure EmittedOf (longOffStart : Nat) (known : TmpLeaf → Prop) (front : List UInt8)
    (children : List (EncodedToken × TmpIndexNode)) (mswr mswr' : MemsectorWriter) (offsets : List Nat) :
    Prop where
  idle : Idle mswr'
  size : longOffStart = 2 ^ 32 → position mswr' = position mswr + imageSizeOf children
  starts : longOffStart = 2 ^ 32 → ∀ (number : Nat) (entry : EncodedToken × TmpIndexNode) (off : Nat),
    children[number]? = some entry → offsets[number]? = some off →
      4 * off = position mswr + imageSizeOf (children.take number) + imageSizeOf entry.2.children
  same : offsets.length = children.length
  increasing : offsets.Pairwise (· < ·)
  within : ∀ off ∈ offsets, position mswr ≤ 4 * off ∧ 4 * off < position mswr'
  rep : ∀ (number : Nat) (entry : EncodedToken × TmpIndexNode) (off : Nat), children[number]? = some entry →
    offsets[number]? = some off → Rep known (front ++ mswr'.data) entry.2 (4 * off)

theorem relOff_eq {currOffset off : Nat} (small : currOffset < 2 ^ 64) (below : off ≤ currOffset) :
    relOff currOffset off = currOffset - off := by
  rw [relOff]
  omega

/-- **Writing an internal node that starts below `2 ^ 34` bytes**: its offset does not wrap, so the entries hold
the differences of the offsets. -/
theorem writeChildrenOffsets_below {longOffStart : Nat} {front : List UInt8} {node : TmpIndexNode}
    (inner : node.children ≠ []) {mswr mswr' : MemsectorWriter} {offsets : List Nat}
    (children : EmittedOf longOffStart known front node.children mswr mswr' offsets)
    {written : MemsectorWriter × Nat}
    (computed : writeChildrenOffsets longOffStart mswr' node offsets = some written)
    (few : node.children.length < 2 ^ 31) (small : position mswr' < 2 ^ 34) :
    ∃ first rest, offsets = first :: rest ∧ 4 * written.2 = position mswr' ∧ Idle written.1 ∧
      (∀ off ∈ offsets, first ≤ off ∧ off < written.2) ∧
      written.1.data = mswr'.data ++
        (inodeBytes (inodeType (decide (longOffStart ≤ written.2 - first))) node.children.length ++
          (entriesOf node.children (offsets.map (written.2 - ·))).flatMap
            (entryBytes (decide (longOffStart ≤ written.2 - first)))) := by
  have aligned := children.idle.aligned
  rw [memsectorAllocUnit] at aligned
  have current : 4 * currentOffset mswr' = position mswr' ∧ currentOffset mswr' < 2 ^ 32 := by
    rw [currentOffset, memsectorAllocUnit]
    omega
  obtain ⟨first, rest, rfl⟩ := List.exists_cons_of_ne_nil (show offsets ≠ [] by
    rintro rfl
    exact inner (List.length_eq_zero_iff.mp children.same.symm))
  have within : ∀ off ∈ first :: rest, first ≤ off ∧ off < currentOffset mswr' := by
    intro off member
    have := children.within off member
    refine ⟨?_, by omega⟩
    rcases List.mem_cons.mp member with rfl | member
    · exact le_rfl
    · exact (List.rel_of_pairwise_cons children.increasing member).le
  have relative : ∀ off ∈ first :: rest, relOff (currentOffset mswr') off = currentOffset mswr' - off := by
    intro off member
    have := within off member
    exact relOff_eq (by omega) (by omega)
  obtain ⟨final, computed', idle, data⟩ := writeChildrenOffsets_spec longOffStart children.idle children.same
    (by omega) fun off member => by
      rw [relative off member]
      have := within off member
      omega
  obtain rfl := Option.some.inj (computed.symm.trans computed')
  rw [List.map_congr_left relative, relative first List.mem_cons_self] at data
  exact ⟨first, rest, rfl, current.1, idle, within, data⟩

/-- **Writing an internal node** whose children are represented, if it starts below `2 ^ 34` bytes. -/
theorem emitted_inner {longOffStart : Nat} (threshold : longOffStart ≤ 2 ^ 32) {front : List UInt8}
    (header : front.length = MemsectorHeader.size) {node : TmpIndexNode} (noLeaf : node.leaf = none)
    (inner : node.children ≠ []) {mswr mswr' : MemsectorWriter} {offsets : List Nat}
    (children : EmittedOf longOffStart known front node.children mswr mswr' offsets)
    {written : MemsectorWriter × Nat}
    (computed : writeChildrenOffsets longOffStart mswr' node offsets = some written)
    (start : position mswr + imageSizeOf node.children ≤ position mswr') (small : position mswr' < 2 ^ 34) :
    Emitted longOffStart known front node mswr written.1 written.2 := by
  have few : node.children.length < 2 ^ 31 := by
    have := length_le_imageSizeOf node.children
    omega
  obtain ⟨extend, size⟩ := extends_writeChildrenOffsets computed
  obtain ⟨first, rest, rfl, current, idle, within, data⟩ :=
    writeChildrenOffsets_below inner children computed few small
  have short : longOffStart = 2 ^ 32 → decide (longOffStart ≤ written.2 - first) = false := by
    rintro rfl
    exact decide_eq_false (by omega)
  have long : position written.1 = position mswr' + 8 +
      node.children.length * (4 + offWidth (decide (longOffStart ≤ written.2 - first))) := by
    rw [position, data, List.length_append, List.length_append, length_inodeBytes, List.length_flatMap,
      List.map_congr_left fun entry _ => length_entryBytes _ entry, List.map_const', List.sum_replicate, smul_eq_mul,
      length_entriesOf (by rw [List.length_map]; exact children.same), position, Nat.add_assoc, Nat.add_assoc]
  refine ⟨idle, by omega, by omega, fun exact => ?_, fun exact => ?_, ?_, ?_⟩
  · rw [long, short exact, children.size exact, imageSize_eq, offWidth, if_neg Bool.false_ne_true]
    omega
  · rw [current, children.size exact]
  · rw [long, offWidth]
    split <;> omega
  · obtain ⟨leaf, entries⟩ := node
    rw [leaf_mk] at noLeaf
    subst noLeaf
    refine .inner (decide (longOffStart ≤ written.2 - first)) ((first :: rest).map (written.2 - ·)) inner few
      (by rw [List.length_map]; exact children.same) ?_ ?_ ?_
    · rw [HoldsInode, length_entriesOf (by rw [List.length_map]; exact children.same)]
      have address : 4 * written.2 = (front ++ mswr'.data).length := by
        rw [current, List.length_append, header]
        rfl
      rw [address, data, ← List.append_assoc, ← List.append_nil (_ ++ (_ ++ _))]
      exact Bytes.holds_append _ _ _
    · intro off member
      obtain ⟨absolute, among, rfl⟩ := List.mem_map.mp member
      obtain ⟨farthest, below⟩ := within absolute among
      refine ⟨by omega, by omega, ?_⟩
      by_cases long : longOffStart ≤ written.2 - first
      · simp only [long, decide_true, offWidth, if_true]
        omega
      · simp only [long, decide_false, offWidth, Bool.false_eq_true, if_false]
        exact lt_of_lt_of_le (show written.2 - absolute < longOffStart by omega) threshold
    · intro number entry off atChild atOffset
      rw [List.getElem?_map, Option.map_eq_some_iff] at atOffset
      obtain ⟨absolute, atOffset, rfl⟩ := atOffset
      have below := (within absolute (List.mem_of_getElem? atOffset)).2
      have address : 4 * written.2 - 4 * (written.2 - absolute) = 4 * absolute := by omega
      rw [address, data, ← List.append_assoc]
      exact (children.rep number entry absolute atChild atOffset).append_right _

/-- A node in front of other children. -/
theorem EmittedOf.cons {longOffStart : Nat} {front : List UInt8} {entry : EncodedToken × TmpIndexNode}
    {rest : List (EncodedToken × TmpIndexNode)} {mswr middle mswr' : MemsectorWriter} {off : Nat}
    {offsets : List Nat} (first : Emitted longOffStart known front entry.2 mswr middle off)
    (extend : Extends middle mswr')
    (others : EmittedOf longOffStart known front rest middle mswr' offsets) :
    EmittedOf longOffStart known front (entry :: rest) mswr mswr' (off :: offsets) := by
  have grown := extend.position_le
  have above := first.above
  have below := first.below
  refine ⟨others.idle, fun exact => ?_, fun exact => ?_, by rw [List.length_cons, List.length_cons, others.same],
    ?_, ?_, ?_⟩
  · rw [others.size exact, first.size exact, imageSizeOf_cons, Nat.add_assoc]
  · intro number other off' atChild atOffset
    cases number with
    | zero =>
      obtain rfl := Option.some.inj atChild
      obtain rfl := Option.some.inj atOffset
      exact first.start exact
    | succ number =>
      rw [others.starts exact number other off' atChild atOffset, first.size exact, List.take_succ_cons,
        imageSizeOf_cons, Nat.add_assoc (position mswr)]
  · refine List.pairwise_cons.mpr ⟨fun other member => ?_, others.increasing⟩
    have := (others.within other member).1
    omega
  · intro other member
    rcases List.mem_cons.mp member with rfl | member
    · exact ⟨above, by omega⟩
    · have := others.within other member
      exact ⟨by omega, this.2⟩
  · intro number other off' atChild atOffset
    cases number with
    | zero =>
      obtain rfl := Option.some.inj atChild
      obtain rfl := Option.some.inj atOffset
      obtain ⟨more, data⟩ := extend
      rw [data, ← List.append_assoc]
      exact first.rep.append_right more
    | succ number => exact others.rep number other off' atChild atOffset

/-- **A node starts below `2 ^ 34` bytes**: as one sees from where its children end, or from their size if only
the offsets that need it are long. -/
def StartsLow (longOffStart : Nat) (children : List (EncodedToken × TmpIndexNode)) (mswr : MemsectorWriter) : Prop :=
  (∀ below, emitOf longOffStart children mswr [] = some below → position below.1 < 2 ^ 34) ∨
    (longOffStart = 2 ^ 32 ∧ position mswr + imageSizeOf children < 2 ^ 34)

/-- **Written children are represented**, if each of them is. -/
theorem emitOf_spec {longOffStart : Nat} {front : List UInt8} (entries : List (EncodedToken × TmpIndexNode))
    (each : ∀ entry ∈ entries, ∀ {mswr : MemsectorWriter} {written : MemsectorWriter × Nat}, Idle mswr →
      emit longOffStart entry.2 mswr = some written → StartsLow longOffStart entry.2.children mswr →
      Emitted longOffStart known front entry.2 mswr written.1 written.2) :
    ∀ {mswr : MemsectorWriter} {offsets : List Nat} {written : MemsectorWriter × List Nat}, Idle mswr →
      emitOf longOffStart entries mswr offsets = some written →
      (position written.1 < 2 ^ 34 ∨ (longOffStart = 2 ^ 32 ∧ position mswr + imageSizeOf entries < 2 ^ 34)) →
      ∃ more, written.2 = offsets ++ more ∧ EmittedOf longOffStart known front entries mswr written.1 more := by
  induction entries with
  | nil =>
    intro mswr offsets written idle computed _
    rw [emitOf] at computed
    obtain rfl := Option.some.inj computed
    exact ⟨[], (List.append_nil _).symm, idle, fun _ => rfl, by simp, rfl, .nil, by simp, by simp⟩
  | cons entry rest ih =>
    intro mswr offsets written idle computed small
    rw [emitOf_cons, Option.bind_eq_some_iff] at computed
    obtain ⟨first, here, later⟩ := computed
    have grown : Extends first.1 written.1 :=
      (extends_emitOf rest (fun other _ => extends_emit longOffStart other.2) later).1
    rw [imageSizeOf_cons] at small
    have starts : StartsLow longOffStart entry.2.children mswr := by
      rcases small with small | ⟨exact, small⟩
      · exact Or.inl fun below computed =>
          lt_of_le_of_lt ((position_emitOf_le here computed).trans grown.position_le) small
      · rw [imageSize_eq] at small
        exact Or.inr ⟨exact, by omega⟩
    have emitted := each entry List.mem_cons_self idle here starts
    have smallRest : position written.1 < 2 ^ 34 ∨
        (longOffStart = 2 ^ 32 ∧ position first.1 + imageSizeOf rest < 2 ^ 34) := by
      rcases small with small | ⟨exact, small⟩
      · exact Or.inl small
      · exact Or.inr ⟨exact, by rw [emitted.size exact]; omega⟩
    obtain ⟨more, offsetsEq, others⟩ := ih (fun other among => each other (List.mem_cons_of_mem _ among))
      emitted.idle later smallRest
    refine ⟨first.2 :: more, ?_, .cons emitted grown others⟩
    rw [offsetsEq, List.append_assoc, List.singleton_append]

/-- **A written node is represented**, if it starts below `2 ^ 34` bytes. -/
theorem emit_spec {longOffStart : Nat} (threshold : longOffStart ≤ 2 ^ 32) {front : List UInt8}
    (header : front.length = MemsectorHeader.size) (node : TmpIndexNode) :
    ∀ {opened : Nat} {mswr : MemsectorWriter} {written : MemsectorWriter × Nat}, WellFormed opened node →
      (∀ entry ∈ TmpIndexNode.leaves node, known entry.2) → Idle mswr →
      emit longOffStart node mswr = some written → StartsLow longOffStart node.children mswr →
      Emitted longOffStart known front node mswr written.1 written.2 := by
  induction node with
  | mk leaf children ih =>
    intro opened mswr written shape fits idle computed small
    cases shape with
    | leaf leaf =>
      rw [← leafNode, emit_leafNode] at computed
      obtain rfl := Option.some.inj computed
      obtain ⟨idle', data, offset⟩ := writeLeaf_spec idle leaf.solutions leaf.id
      have fitsLeaf := fits ([], leaf) (by rw [← leafNode, leaves_leafNode]; exact List.mem_singleton_self _)
      have aligned := idle.aligned
      have grown : position (writeLeaf mswr leaf.solutions leaf.id).1 = position mswr + 8 := by
        rw [position, position, data, List.length_append, length_leafBytes, Nat.add_assoc]
      have start : position mswr < 2 ^ 34 := by
        rcases small with small | ⟨_, small⟩
        · exact small (mswr, []) (by rw [children_mk, emitOf])
        · omega
      have address : 4 * (writeLeaf mswr leaf.solutions leaf.id).2 = position mswr := by
        rw [offset, currentOffset]
        rw [memsectorAllocUnit] at aligned ⊢
        omega
      refine ⟨idle', by omega, by omega, fun _ => ?_, fun _ => address, by omega, .leaf ?_ fitsLeaf⟩
      · rw [grown, imageSize_eq]
        rfl
      rw [address, data, position, ← header, ← List.length_append, ← List.append_assoc,
        ← List.append_nil (_ ++ leafBytes _ _)]
      exact Bytes.holds_append _ _ _
    | @inner opened _ nonempty _ below =>
      have inner : (TmpIndexNode.mk none children).children ≠ [] := nonempty
      have each : ∀ entry ∈ children, ∀ {mswr : MemsectorWriter} {written : MemsectorWriter × Nat}, Idle mswr →
          emit longOffStart entry.2 mswr = some written → StartsLow longOffStart entry.2.children mswr →
          Emitted longOffStart known front entry.2 mswr written.1 written.2 := by
        intro entry member mswr written idle here starts
        refine ih entry member (below entry member) (fun leaf among => ?_) idle here starts
        refine fits (entry.1 :: leaf.1, leaf.2) ?_
        rw [leaves_inner, leavesOf_eq_flatMap]
        exact List.mem_flatMap.mpr ⟨entry, member, List.mem_map.mpr ⟨leaf, among, rfl⟩⟩
      rw [emit_inner longOffStart inner, Option.bind_eq_some_iff] at computed
      obtain ⟨⟨mswr', offsets⟩, written', last⟩ := computed
      obtain ⟨more, rfl, emitted⟩ := emitOf_spec children each idle written'
        (small.imp (fun small => small _ written') id)
      have start : position mswr' < 2 ^ 34 := by
        rcases small with small | ⟨exact, small⟩
        · exact small _ written'
        · rw [emitted.size exact]
          exact small
      refine emitted_inner threshold header rfl inner emitted last ?_ start
      exact (extends_emitOf children (fun entry _ => extends_emit longOffStart entry.2) written').2

/-- Where a node starts low, its children take less than `2 ^ 34` bytes. -/
theorem StartsLow.imageSizeOf_lt {longOffStart : Nat} {node : TmpIndexNode} {mswr : MemsectorWriter}
    {written : MemsectorWriter × Nat} (inner : node.children ≠ [])
    (computed : emit longOffStart node mswr = some written) (low : StartsLow longOffStart node.children mswr) :
    position mswr + imageSizeOf node.children < 2 ^ 34 := by
  rcases low with low | ⟨_, low⟩
  · rw [emit_inner longOffStart inner, Option.bind_eq_some_iff] at computed
    obtain ⟨below, children, _⟩ := computed
    have size := (extends_emitOf node.children (fun entry _ => extends_emit longOffStart entry.2) children).2
    exact lt_of_le_of_lt size (low below children)
  · exact low

/-- **The exported file**: the export comes to an end and every leaf takes its bytes. If the root starts below
`2 ^ 34` bytes, every assertion held, the file loads and the root is represented where the header says. -/
theorem exported_spec {longOffStart : Nat} (threshold : longOffStart ≤ 2 ^ 32) {index : TmpIndex}
    (shape : WellFormed 1 index.root) (fits : ∀ entry ∈ index.leaves, known entry.2) :
    ∃ enough mswr file, (∀ fuel, enough ≤ fuel →
        exportToMemsector longOffStart index fuel create = some (mswr, file)) ∧
      (file.length < 2 ^ 34 → StartsLow longOffStart index.root.children create) ∧
      (StartsLow longOffStart index.root.children create → index.leaves.length < 2 ^ 32 ∧ mswr.held = true ∧
        ∃ header, Memsector.load file = some header ∧ Rep known file index.root (getRoot header)) := by
  obtain ⟨written, emitted, enough, computed⟩ := exportToMemsector_eq longOffStart shape create
  refine ⟨enough, written.1, save written.1 written.2, computed, fun small => ?_, fun small => ?_⟩
  · rw [length_save] at small
    exact Or.inl fun below children => lt_of_le_of_lt (position_emitOf_le emitted children) small
  have spec : Emitted longOffStart known (savedHeader written.1 written.2).bytes index.root create written.1
      written.2 :=
    emit_spec threshold (MemsectorHeader.length_bytes _) index.root shape fits idle_create emitted small
  have few := small.imageSizeOf_lt shape.children_ne_nil emitted
  have bounded := spec.bounded
  have below := spec.below
  rw [position] at bounded below
  have root : getRoot (savedHeader written.1 written.2) = 4 * written.2 :=
    getRoot_savedHeader written.1 (by omega)
  refine ⟨?_, spec.idle.held, _, load_save written.1 (by rw [length_save]; omega) (by omega), root ▸ spec.rep⟩
  have leaves := length_leavesOf_le fun entry (_ : entry ∈ index.root.children) => length_leaves_le entry.2
  rw [TmpIndex.leaves]
  generalize index.root = root at shape few leaves
  cases shape with
  | inner _ _ _ =>
    rw [leaves_inner]
    rw [children_mk] at few leaves
    omega

end TmpIndex

end MathWebSearch
