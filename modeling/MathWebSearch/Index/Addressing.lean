/-
**Where the nodes of an exported index are** (`_writeChildrenOffsets`, `memsector_relOff2addr`,
`memsector_get_root`).

* `addressOf` — the byte at which the node of a path starts: where the writer stands when its children are written.
* `Addressed` — every stored offset leads to the child, a node is long exactly when a child is `2 ^ 32` units away,
  and the root offset of the header is where the root starts.
* `addressed_iff` — this holds exactly for the indexes whose root starts below byte `2 ^ 34`: behind that, the 32-bit
  type of `memsector_get_current_offset` drops bits.
* `deepIndex` — an index whose root starts behind it.
-/

import MathWebSearch.Index.IndexAccessor

namespace MathWebSearch

open PrefixCode TmpIndexNode

namespace TmpIndex

open Memsector

/-- The writer behind a list of children. -/
def writerAfter (children : List (EncodedToken × TmpIndexNode)) (mswr : MemsectorWriter) : Option MemsectorWriter :=
  (emitOf memsectorLongOffStart children mswr []).map Prod.fst

/-- **Where the node of a path starts**: the position of the writer when the node's children are written. -/
def addressOf : EncodedFormula → TmpIndexNode → MemsectorWriter → Option Nat
  | [], node, mswr => (writerAfter node.children mswr).map position
  | token :: path, node, mswr => do
    let before ← writerAfter (node.children.takeWhile fun entry => entry.1 ≠ token) mswr
    let next ← node.child token
    addressOf path next before

/-- **A node is addressed correctly**: its entries lead to its children, and it is long when one of them is
`2 ^ 32` or more units away. -/
def NodeAddressed (file : List UInt8) (address : Nat) (node : TmpIndexNode) (childAt : EncodedToken → Option Nat) :
    Prop :=
  ∃ type, nodeType file address = some type ∧
    (∀ (number : Nat) (entry : EncodedToken × TmpIndexNode), node.children[number]? = some entry →
      ∃ child off, childAt entry.1 = some child ∧
        entryOff file address (decide (type = longInternalNode)) number = some off ∧
        IndexHandle.relOff2addr address off = some child) ∧
    (type = longInternalNode ↔ ∃ entry ∈ node.children, ∃ child, childAt entry.1 = some child ∧
      2 ^ 32 ≤ (address - child) / memsectorAllocUnit)

/-- **The index is addressed correctly**: every internal node is, and the header knows the root. -/
def Addressed (index : TmpIndex) (file : List UInt8) (rootOff : Nat) : Prop :=
  (∀ path node, walk path index.root = some node → node.children ≠ [] →
    ∃ address, addressOf path index.root create = some address ∧
      NodeAddressed file address node fun token => addressOf (path ++ [token]) index.root create) ∧
  addressOf [] index.root create = some (memsectorAllocUnit * rootOff)

/-! ### Below `2 ^ 34` bytes -/

section Low

/-- The writer does not depend on the offsets collected. -/
theorem map_fst_emitOf (children : List (EncodedToken × TmpIndexNode)) : ∀ (mswr : MemsectorWriter)
    (offsets : List Nat), (emitOf memsectorLongOffStart children mswr offsets).map Prod.fst =
      writerAfter children mswr := by
  induction children with
  | nil =>
    intro mswr offsets
    rw [writerAfter, emitOf, emitOf]
    rfl
  | cons entry rest ih =>
    intro mswr offsets
    rw [writerAfter, emitOf_cons, emitOf_cons]
    cases emit memsectorLongOffStart entry.2 mswr with
    | none => rfl
    | some written => exact (ih _ _).trans (ih _ _).symm

theorem writerAfter_cons (entry : EncodedToken × TmpIndexNode) (rest : List (EncodedToken × TmpIndexNode))
    (mswr : MemsectorWriter) : writerAfter (entry :: rest) mswr =
      (emit memsectorLongOffStart entry.2 mswr).bind fun written => writerAfter rest written.1 := by
  rw [writerAfter, emitOf_cons]
  cases emit memsectorLongOffStart entry.2 mswr with
  | none => rfl
  | some written => exact map_fst_emitOf rest _ _

variable {front : List UInt8} {opened : Nat} {node : TmpIndexNode} {mswr : MemsectorWriter}
  {written : MemsectorWriter × Nat}

/-- A node written from an idle writer, with room for its children below `2 ^ 34` bytes. -/
structure WrittenLow (opened : Nat) (node : TmpIndexNode) (mswr : MemsectorWriter) (written : MemsectorWriter × Nat) :
    Prop where
  shape : WellFormed opened node
  idle : Idle mswr
  computed : emit memsectorLongOffStart node mswr = some written
  low : position mswr + imageSizeOf node.children < 2 ^ 34

theorem WrittenLow.emitted (low : WrittenLow opened node mswr written)
    (header : front.length = MemsectorHeader.size) :
    Emitted memsectorLongOffStart (fun _ => True) front node mswr written.1 written.2 :=
  emit_spec le_rfl header node low.shape (fun _ _ => trivial) low.idle low.computed (Or.inr ⟨rfl, low.low⟩)

/-- The children of such a node. -/
theorem WrittenLow.children (low : WrittenLow opened node mswr written) (inner : node.children ≠ [])
    (header : front.length = MemsectorHeader.size) :
    ∃ mswr' offsets, EmittedOf memsectorLongOffStart (fun _ => True) front node.children mswr mswr' offsets ∧
      writerAfter node.children mswr = some mswr' ∧
      writeChildrenOffsets memsectorLongOffStart mswr' node offsets = some written := by
  have computed := low.computed
  rw [emit_inner memsectorLongOffStart inner, Option.bind_eq_some_iff] at computed
  obtain ⟨⟨mswr', offsets⟩, children, last⟩ := computed
  have each : ∀ entry ∈ node.children, ∀ {mswr : MemsectorWriter} {written : MemsectorWriter × Nat}, Idle mswr →
      emit memsectorLongOffStart entry.2 mswr = some written →
      StartsLow memsectorLongOffStart entry.2.children mswr →
      Emitted memsectorLongOffStart (fun _ => True) front entry.2 mswr written.1 written.2 := by
    intro entry member mswr written idle here starts
    obtain ⟨opened, shape⟩ : ∃ opened, WellFormed opened entry.2 := by
      cases low.shape with
      | leaf => cases member
      | inner _ _ shapes => exact ⟨_, shapes entry member⟩
    exact emit_spec le_rfl header entry.2 shape (fun _ _ => trivial) idle here starts
  obtain ⟨more, same, emitted⟩ := emitOf_spec node.children each low.idle children (Or.inr ⟨rfl, low.low⟩)
  obtain rfl : offsets = more := same.trans (List.nil_append more)
  exact ⟨mswr', offsets, emitted, by rw [writerAfter, children]; rfl, last⟩

/-- **The address of a node that is written low.** -/
theorem WrittenLow.addressOf_nil (low : WrittenLow opened node mswr written) :
    addressOf [] node mswr = some (position mswr + imageSizeOf node.children) := by
  rw [addressOf]
  by_cases inner : node.children = []
  · rw [inner, writerAfter, emitOf]
    rfl
  · obtain ⟨mswr', offsets, emitted, after, _⟩ := low.children inner
      (MemsectorHeader.length_bytes (savedHeader mswr 0))
    rw [after, Option.map_some, emitted.size rfl]

/-- The writer in front of a child. -/
theorem writerAfter_take (header : front.length = MemsectorHeader.size)
    (children : List (EncodedToken × TmpIndexNode)) :
    ∀ {mswr mswr' : MemsectorWriter} {number : Nat} {entry : EncodedToken × TmpIndexNode}, Idle mswr →
      (∀ entry ∈ children, ∃ opened, WellFormed opened entry.2) → writerAfter children mswr = some mswr' →
      position mswr + imageSizeOf children < 2 ^ 34 → children[number]? = some entry →
      ∃ before opened written, writerAfter (children.take number) mswr = some before ∧
        WrittenLow opened entry.2 before written ∧
        position before = position mswr + imageSizeOf (children.take number) ∧ Extends written.1 mswr' := by
  induction children with
  | nil => intro mswr mswr' number entry _ _ _ _ found; cases found
  | cons first rest ih =>
    intro mswr mswr' number entry idle shapes after low found
    rw [writerAfter_cons, Option.bind_eq_some_iff] at after
    obtain ⟨written, here, later⟩ := after
    obtain ⟨opened, shape⟩ := shapes first List.mem_cons_self
    rw [imageSizeOf_cons, imageSize_eq] at low
    have writtenLow : WrittenLow opened first.2 mswr written := ⟨shape, idle, here, by omega⟩
    have emitted := writtenLow.emitted header
    have size := emitted.size rfl
    rw [imageSize_eq] at size
    cases number with
    | zero =>
      obtain rfl := Option.some.inj found
      refine ⟨mswr, opened, written, by rw [List.take_zero, writerAfter, emitOf]; rfl, writtenLow, rfl, ?_⟩
      obtain ⟨below, children, rfl⟩ := Option.map_eq_some_iff.mp later
      exact (extends_emitOf rest (fun other _ => extends_emit memsectorLongOffStart other.2) children).1
    | succ number =>
      obtain ⟨before, opened, written', after', low', place, extend⟩ := ih emitted.idle
        (fun other member => shapes other (List.mem_cons_of_mem _ member)) later (by omega) found
      refine ⟨before, opened, written', ?_, low', ?_, extend⟩
      · rw [List.take_succ_cons, writerAfter_cons, here]
        exact after'
      · rw [place, List.take_succ_cons, imageSizeOf_cons, imageSize_eq]
        omega

/-- The children in front of one of them are those with other tokens. -/
theorem takeWhile_eq_take {children : List (EncodedToken × TmpIndexNode)} (nodup : (children.map Prod.fst).Nodup) :
    ∀ {number : Nat} {entry : EncodedToken × TmpIndexNode}, children[number]? = some entry →
      (children.takeWhile fun other => other.1 ≠ entry.1) = children.take number := by
  induction children with
  | nil => intro number entry found; cases found
  | cons first rest ih =>
    intro number entry found
    rw [List.map_cons, List.nodup_cons] at nodup
    cases number with
    | zero =>
      obtain rfl := Option.some.inj found
      simp
    | succ number =>
      have later : entry ∈ rest := List.mem_of_getElem? found
      have different : first.1 ≠ entry.1 := fun same =>
        nodup.1 (same ▸ List.mem_map_of_mem later)
      rw [List.takeWhile_cons_of_pos (by simpa using different), List.take_succ_cons, ih nodup.2 found]

/-- **Going down to a child.** -/
theorem WrittenLow.child (low : WrittenLow opened node mswr written) {number : Nat}
    {entry : EncodedToken × TmpIndexNode} (found : node.children[number]? = some entry) :
    ∃ before opened' written', WrittenLow opened' entry.2 before written' ∧ Extends written'.1 written.1 ∧
      position before = position mswr + imageSizeOf (node.children.take number) ∧
      ∀ path, addressOf (entry.1 :: path) node mswr = addressOf path entry.2 before := by
  have member := List.mem_of_getElem? found
  obtain ⟨mswr', offsets, emitted, after, last⟩ := low.children (List.ne_nil_of_mem member)
    (MemsectorHeader.length_bytes (savedHeader mswr 0))
  have shapes : ∀ entry ∈ node.children, ∃ opened, WellFormed opened entry.2 := by
    intro entry among
    cases low.shape with
    | leaf => cases among
    | inner _ _ shapes => exact ⟨_, shapes entry among⟩
  obtain ⟨before, opened', written', after', low', place, extend⟩ := writerAfter_take
    (MemsectorHeader.length_bytes (savedHeader mswr 0)) node.children low.idle shapes after low.low found
  refine ⟨before, opened', written', low', extend.trans (extends_writeChildrenOffsets last).1, place, fun path => ?_⟩
  rw [addressOf, takeWhile_eq_take low.shape.sorted.nodup found, after', low.shape.child_of_mem member]
  rfl

/-- **A node that starts below `2 ^ 34` bytes is addressed correctly.** -/
theorem WrittenLow.nodeAddressed (low : WrittenLow opened node mswr written) (inner : node.children ≠ [])
    (header : front.length = MemsectorHeader.size) {final : MemsectorWriter} (extend : Extends written.1 final) :
    NodeAddressed (front ++ final.data) (position mswr + imageSizeOf node.children) node
      fun token => addressOf [token] node mswr := by
  obtain ⟨mswr', offsets, emitted, _, last⟩ := low.children inner header
  have size := emitted.size rfl
  have few := length_le_imageSizeOf node.children
  have small := low.low
  obtain ⟨first, rest, rfl, current, _, within, data⟩ :=
    writeChildrenOffsets_below inner emitted last (by omega) (by omega)
  have short : decide (memsectorLongOffStart ≤ written.2 - first) = false := by
    rw [memsectorLongOffStart]
    exact decide_eq_false (by omega)
  have same : ((first :: rest).map (written.2 - ·)).length = node.children.length := by
    rw [List.length_map, emitted.same]
  have holds : HoldsInode (front ++ final.data) (position mswr + imageSizeOf node.children) false
      (entriesOf node.children ((first :: rest).map (written.2 - ·))) := by
    obtain ⟨more, rest'⟩ := extend
    have address : position mswr + imageSizeOf node.children = (front ++ mswr'.data).length := by
      rw [List.length_append, header, ← size]
      rfl
    rw [short] at data
    rw [HoldsInode, length_entriesOf same, address, rest', data, ← List.append_assoc, ← List.append_assoc]
    exact Bytes.holds_append _ _ _
  -- the entry of a child holds the distance to where the child starts
  have entries : ∀ (number : Nat) (entry : EncodedToken × TmpIndexNode), node.children[number]? = some entry →
      ∃ off, (first :: rest)[number]? = some off ∧ off < written.2 ∧
        addressOf [entry.1] node mswr = some (4 * off) ∧
        entryOff (front ++ final.data) (position mswr + imageSizeOf node.children) false number =
          some (written.2 - off) := by
    intro number entry found
    have inside : number < (first :: rest).length := by
      rw [emitted.same]
      exact (List.getElem?_eq_some_iff.mp found).1
    have atOffset := List.getElem?_eq_getElem inside
    have below := (within _ (List.mem_of_getElem? atOffset)).2
    obtain ⟨before, opened', written', low', _, place, down⟩ := low.child found
    refine ⟨_, atOffset, below, ?_, ?_⟩
    · rw [down [], low'.addressOf_nil, place, emitted.starts rfl number entry _ found atOffset]
    · refine holds.entryOff_eq (getElem?_entriesOf found (by rw [List.getElem?_map, atOffset]; rfl)) ?_
      show written.2 - _ < 256 ^ 4
      omega
  refine ⟨inodeType false, holds.nodeType_eq, fun number entry found => ?_, fun long => absurd long (by decide), ?_⟩
  · obtain ⟨off, _, below, child, stored⟩ := entries number entry found
    refine ⟨_, _, child, stored, ?_⟩
    rw [IndexHandle.relOff2addr, ← size, ← current, if_pos (by rw [memsectorAllocUnit]; omega)]
    congr 1
    rw [memsectorAllocUnit]
    omega
  · rintro ⟨entry, _, child, _, far⟩
    rw [memsectorAllocUnit] at far
    omega

/-- **So is every node below it.** -/
theorem WrittenLow.addressed (path : EncodedFormula) (header : front.length = MemsectorHeader.size)
    {final : MemsectorWriter} : ∀ {opened : Nat} {node last : TmpIndexNode} {mswr : MemsectorWriter}
    {written : MemsectorWriter × Nat}, WrittenLow opened node mswr written → Extends written.1 final →
    walk path node = some last → last.children ≠ [] →
    ∃ address, addressOf path node mswr = some address ∧
      NodeAddressed (front ++ final.data) address last fun token => addressOf (path ++ [token]) node mswr := by
  induction path with
  | nil =>
    intro opened node last mswr written low extend reached inner
    obtain rfl := Option.some.inj reached
    exact ⟨_, low.addressOf_nil, low.nodeAddressed inner header extend⟩
  | cons token rest ih =>
    intro opened node last mswr written low extend reached inner
    rw [walk, Option.bind_eq_some_iff] at reached
    obtain ⟨next, child, reached⟩ := reached
    obtain ⟨number, found⟩ := List.getElem?_of_mem ((VectorMap.find_eq_some_iff low.shape.sorted).mp child)
    obtain ⟨before, opened', written', low', extend', _, down⟩ := low.child found
    obtain ⟨address, placed, right⟩ := ih low' (extend'.trans extend) reached inner
    refine ⟨address, (down rest).trans placed, ?_⟩
    have each : (fun other => addressOf (token :: rest ++ [other]) node mswr) =
        fun other => addressOf (rest ++ [other]) next before := by
      funext other
      exact down (rest ++ [other])
    rw [each]
    exact right

end Low

/-! ### Indexes of complete prefix codes -/

/-- **The indexes of complete prefix codes**, in any order of `insertData` and `solutions++`. -/
inductive Inserted : TmpIndex → Prop
  | empty (nextId : Nat) : Inserted (TmpIndex.empty nextId)
  | insertData {index index' : TmpIndex} {formula : EncodedFormula} {leaf : TmpLeaf} :
      Inserted index → formula.IsPrefixCode → index.insertData formula = some (index', leaf) → Inserted index'
  | addSolution {index : TmpIndex} {formula : EncodedFormula} {leaf : TmpLeaf} :
      Inserted index → index.leafAt formula = some leaf → Inserted (index.addSolution formula)

theorem Inserted.shaped {index : TmpIndex} (inserted : index.Inserted) : index.Shaped := by
  induction inserted with
  | empty nextId => exact Or.inl rfl
  | insertData _ complete computed ih => exact Or.inr (insertData_inv ih complete computed).1
  | addSolution _ stored ih => exact Or.inr (addSolution_inv ih stored).1

theorem Inserted.wellFormed {index : TmpIndex} (inserted : index.Inserted) (nonempty : ¬ index.IsEmpty) :
    WellFormed 1 index.root := by
  rcases inserted.shaped with new | shape
  · exact absurd (by rw [IsEmpty, new]; rfl) nonempty
  · exact shape

theorem Built.inserted {index : TmpIndex} (built : index.Built) : index.Inserted := by
  induction built with
  | empty nextId => exact .empty nextId
  | insertData _ complete _ computed ih => exact .insertData ih complete computed
  | addSolution _ stored ih => exact .addSolution ih stored

/-- The offset of an internal node has 32 bits. -/
theorem writeChildrenOffsets_snd {mswr : MemsectorWriter} {node : TmpIndexNode} {offsets : List Nat}
    {written : MemsectorWriter × Nat}
    (computed : writeChildrenOffsets memsectorLongOffStart mswr node offsets = some written) :
    written.2 = currentOffset mswr := by
  obtain ⟨front, _, computed⟩ := Option.bind_eq_some_iff.mp computed
  obtain ⟨mswr', _, last⟩ := Option.bind_eq_some_iff.mp computed
  obtain rfl := Option.some.inj last
  exact offset_div mswr

/-- The header of an exported file can be read. -/
theorem read_save {index : TmpIndex} {written : MemsectorWriter × Nat}
    (emitted : emit memsectorLongOffStart index.root create = some written) (shape : WellFormed 1 index.root) :
    MemsectorHeader.read (save written.1 written.2) = some (savedHeader written.1 written.2) := by
  rw [emit_inner memsectorLongOffStart shape.children_ne_nil, Option.bind_eq_some_iff] at emitted
  obtain ⟨below, _, last⟩ := emitted
  have root : written.2 < 2 ^ 32 := by
    rw [writeChildrenOffsets_snd last]
    exact Nat.mod_lt _ (by decide)
  exact MemsectorHeader.read_bytes _ _ (show memsectorMagic < 2 ^ 32 by decide)
    (show memsectorVersion < 2 ^ 32 by decide) (Nat.mod_lt _ (by decide))
    (lt_trans root (by decide))

theorem addressed_iff {index : TmpIndex} (shape : WellFormed 1 index.root) {written : MemsectorWriter × Nat}
    (emitted : emit memsectorLongOffStart index.root create = some written) :
    Addressed index (save written.1 written.2) written.2 ↔
      MemsectorHeader.size + imageSizeOf index.root.children < 2 ^ 34 := by
  constructor
  · rintro ⟨_, root⟩
    rw [emit_inner memsectorLongOffStart shape.children_ne_nil, Option.bind_eq_some_iff] at emitted
    obtain ⟨below, children, last⟩ := emitted
    have size := (extends_emitOf index.root.children
      (fun entry _ => extends_emit memsectorLongOffStart entry.2) children).2
    rw [addressOf, writerAfter, children, Option.map_some, Option.map_some] at root
    have place := Option.some.inj root
    have few : written.2 < 2 ^ 32 := by
      rw [writeChildrenOffsets_snd last]
      exact Nat.mod_lt _ (by decide)
    rw [memsectorAllocUnit] at place
    exact lt_of_le_of_lt size (by omega)
  · intro small
    have low : WrittenLow 1 index.root create written := ⟨shape, idle_create, emitted, small⟩
    have header := MemsectorHeader.length_bytes (savedHeader written.1 written.2)
    refine ⟨fun path node reached inner => ?_, ?_⟩
    · exact WrittenLow.addressed path header low (.refl _) reached inner
    · rw [low.addressOf_nil, memsectorAllocUnit, (low.emitted header).start rfl]

/-- **An exported index is addressed correctly exactly when its root starts below byte `2 ^ 34`.** -/
theorem exportToMemsector_addressed_iff {index : TmpIndex} (inserted : index.Inserted)
    (nonempty : ¬ index.IsEmpty) : ∃ enough mswr file header,
      (∀ fuel, enough ≤ fuel →
        index.exportToMemsector memsectorLongOffStart fuel create = some (mswr, file)) ∧
      MemsectorHeader.read file = some header ∧
      (Addressed index file header.rootOff ↔
        MemsectorHeader.size + imageSizeOf index.root.children < 2 ^ 34) := by
  have shape := inserted.wellFormed nonempty
  obtain ⟨written, emitted, enough, computed⟩ := exportToMemsector_eq memsectorLongOffStart shape create
  exact ⟨enough, written.1, _, _, computed, read_save emitted shape, addressed_iff shape emitted⟩

/-! ### An index whose root starts behind byte `2 ^ 34` -/

/-- A symbol with one argument. -/
def unaryToken : EncodedToken := encodedToken 200 1

/-- A symbol without arguments. -/
def plainToken : EncodedToken := encodedToken 200 0

/-- Another one. -/
def otherToken : EncodedToken := encodedToken 201 0

/-- A tower of `depth` unary symbols. -/
def deepFormula (depth : Nat) : EncodedFormula := List.replicate depth unaryToken ++ [plainToken]

/-- The index of one plain symbol and of a tower. -/
def deepIndex (depth : Nat) : TmpIndex := (TmpIndex.empty 0).insertAll [[otherToken], unaryToken :: deepFormula depth]

/-- The nodes of a tower. -/
def tower (leaf : TmpLeaf) : Nat → TmpIndexNode
  | 0 => .mk none [(plainToken, leafNode leaf)]
  | depth + 1 => .mk none [(unaryToken, tower leaf depth)]

theorem insertAt_deepFormula (nextId depth : Nat) : insertAt (deepFormula depth) newNode nextId =
    some (tower ⟨(nextId + 1) % 2 ^ 32, 0⟩ depth, ⟨(nextId + 1) % 2 ^ 32, 0⟩, (nextId + 1) % 2 ^ 32) := by
  induction depth with
  | zero => rfl
  | succ depth ih =>
    have longer : deepFormula (depth + 1) = unaryToken :: deepFormula depth := rfl
    obtain ⟨token, rest, same⟩ := List.exists_cons_of_ne_nil (show deepFormula depth ≠ [] by simp [deepFormula])
    rw [longer, same, insertAt, ← same, child_newNode, Option.getD_none, ih]
    · rfl
    · exact List.cons_ne_nil _ _

/-- The unary symbol goes behind the plain one. -/
theorem setChild_unaryToken (plain next : TmpIndexNode) : (TmpIndexNode.mk none [(otherToken, plain)]).setChild
    unaryToken next = .mk none [(otherToken, plain), (unaryToken, next)] := by
  have behind : EncodedToken.compare unaryToken otherToken ≠ .lt := by decide
  have place : VectorMap.findIndex EncodedToken.compare [(otherToken, plain)] unaryToken = 1 :=
    VectorMap.findIndex_of_notMem (List.pairwise_singleton _ _)
      (by simp [unaryToken, otherToken, encodedToken])
  rw [setChild, VectorMap.assign, VectorMap.insert]
  simp [place, VectorMap.reorder, behind]

theorem deepIndex_root (depth : Nat) : (deepIndex depth).root =
    .mk none [(otherToken, leafNode ⟨1, 0⟩), (unaryToken, tower ⟨2, 0⟩ depth)] := by
  obtain ⟨token, rest, same⟩ := List.exists_cons_of_ne_nil (show deepFormula depth ≠ [] by simp [deepFormula])
  have first : (TmpIndex.empty 0).insertData [otherToken] =
      some (⟨.mk none [(otherToken, leafNode ⟨1, 0⟩)], 1⟩, ⟨1, 0⟩) := rfl
  have second : (⟨.mk none [(otherToken, leafNode ⟨1, 0⟩)], 1⟩ : TmpIndex).insertData
      (unaryToken :: deepFormula depth) =
        some (⟨.mk none [(otherToken, leafNode ⟨1, 0⟩), (unaryToken, tower ⟨2, 0⟩ depth)], 2⟩, ⟨2, 0⟩) := by
    have sorted : VectorMap.Sorted EncodedToken.compare [(otherToken, leafNode ⟨1, 0⟩)] :=
      List.pairwise_singleton _ _
    have absent : (TmpIndexNode.mk none [(otherToken, leafNode ⟨1, 0⟩)]).child unaryToken = none :=
      (VectorMap.find_eq_none_iff sorted).mpr (by simp [unaryToken, otherToken, encodedToken])
    rw [insertData, same, insertAt, ← same, absent, Option.getD_none, insertAt_deepFormula]
    · show some (TmpIndex.mk (setChild _ unaryToken _) _, _) = _
      rw [setChild_unaryToken]
      rfl
    · exact List.cons_ne_nil _ _
  rw [deepIndex, insertAll, List.foldl_cons, first, List.foldl_cons]
  show (((insertData _ _).map Prod.fst).getD _).root = _
  rw [show (Option.map Prod.fst (some ((⟨.mk none [(otherToken, leafNode ⟨1, 0⟩)], 1⟩ : TmpIndex),
    (⟨1, 0⟩ : TmpLeaf)))).getD (TmpIndex.empty 0) = ⟨.mk none [(otherToken, leafNode ⟨1, 0⟩)], 1⟩ from rfl, second]
  rfl

theorem closes_deepFormula (depth : Nat) : Closes EncodedToken.arity 1 (deepFormula depth) := by
  induction depth with
  | zero => exact trivial
  | succ depth ih => exact ih

theorem deepIndex_built (depth : Nat) : (deepIndex depth).Built ∧ ¬ (deepIndex depth).IsEmpty := by
  have codes : ∀ formula ∈ ([[otherToken], unaryToken :: deepFormula depth] : List EncodedFormula),
      formula.IsPrefixCode ∧ formula.VariableFree := by
    intro formula member
    rcases List.mem_cons.mp member with rfl | member
    · exact ⟨(isComplete_iff_closes _).mpr (by decide), by decide⟩
    · obtain rfl := List.mem_singleton.mp member
      refine ⟨(isComplete_iff_closes _).mpr (closes_deepFormula (depth + 1)), fun token among => ?_⟩
      rcases List.mem_append.mp (show token ∈ deepFormula (depth + 1) from among) with unary | last
      · rw [List.eq_of_mem_replicate unary]
        decide
      · rw [List.mem_singleton.mp last]
        decide
  obtain ⟨built, nonempty⟩ := (Built.empty 0).insertAll codes
  exact ⟨built, nonempty (List.cons_ne_nil _ _)⟩

theorem imageSize_tower (leaf : TmpLeaf) (depth : Nat) : imageSize (tower leaf depth) = 24 + 16 * depth := by
  induction depth with
  | zero => rfl
  | succ depth ih =>
    rw [imageSize_eq]
    show 8 + 8 * 1 + (imageSize (tower leaf depth) + 0) = _
    omega

theorem imageSizeOf_deepIndex (depth : Nat) :
    imageSizeOf (deepIndex depth).root.children = 32 + 16 * depth := by
  rw [deepIndex_root, children_mk, imageSizeOf_cons, imageSizeOf_cons, imageSize_tower]
  show 8 + (24 + 16 * depth + 0) = _
  omega

/-- **The export of the deep tower**: the root is written at byte `2 ^ 34 + 12`, and the offset of it that is kept is
`3`. -/
theorem emit_deepIndex {depth : Nat} (deep : depth + 3 = 2 ^ 30) :
    ∃ written, emit memsectorLongOffStart (deepIndex depth).root create = some written ∧ written.2 = 3 ∧
      written.1.data.length = 2 ^ 34 + 16 := by
  obtain ⟨built, nonempty⟩ := deepIndex_built depth
  have shape := built.wellFormed nonempty
  have header := MemsectorHeader.length_bytes (savedHeader create 0)
  obtain ⟨written, emitted, _⟩ := exportToMemsector_eq memsectorLongOffStart shape create
  have children := emitted
  rw [emit_inner memsectorLongOffStart shape.children_ne_nil, Option.bind_eq_some_iff] at children
  obtain ⟨below, children, last⟩ := children
  rw [deepIndex_root, children_mk, emitOf_cons, Option.bind_eq_some_iff] at children
  obtain ⟨first, plain, children⟩ := children
  rw [emitOf_cons, Option.bind_eq_some_iff] at children
  obtain ⟨second, high, children⟩ := children
  rw [emitOf] at children
  obtain rfl := Option.some.inj children
  -- the plain symbol
  have plainLow : WrittenLow 0 (leafNode ⟨1, 0⟩) create first := ⟨.leaf _, idle_create, plain, by decide⟩
  have plainStart : 4 * first.2 = 28 := (plainLow.emitted header).start rfl
  have plainEnd : position first.1 = 36 := (plainLow.emitted header).size rfl
  -- the tower, which still starts below the boundary
  have towerSize : imageSizeOf (tower ⟨2, 0⟩ depth).children = 8 + 16 * depth := by
    have whole := imageSize_tower ⟨2, 0⟩ depth
    rw [imageSize_eq] at whole
    have one : (tower ⟨2, 0⟩ depth).children.length = 1 := by cases depth <;> rfl
    omega
  have towerLow : WrittenLow 1 (tower ⟨2, 0⟩ depth) first.1 second := by
    refine ⟨?_, (plainLow.emitted header).idle, high, by omega⟩
    rw [deepIndex_root] at shape
    exact shape.entry (List.mem_cons_of_mem _ (List.mem_singleton_self _))
  have towerStart : 4 * second.2 = 36 + (8 + 16 * depth) := by
    rw [(towerLow.emitted header).start rfl, plainEnd, towerSize]
  have towerEnd : position second.1 = 36 + (24 + 16 * depth) := by
    rw [(towerLow.emitted header).size rfl, plainEnd, imageSize_tower]
  have offset : currentOffset second.1 = 3 := by
    rw [currentOffset, memsectorAllocUnit, towerEnd]
    omega
  -- the root, whose offset has wrapped
  have two : (deepIndex depth).root.children.length = 2 := by rw [deepIndex_root]; rfl
  have same : [first.2, second.2].length = (deepIndex depth).root.children.length := two.symm
  obtain ⟨final, computed, _, data⟩ := writeChildrenOffsets_spec memsectorLongOffStart
    (towerLow.emitted header).idle same (by rw [two]; decide) (by
      intro off member
      rw [offset, relOff]
      rcases List.mem_cons.mp member with rfl | member
      · omega
      · obtain rfl := List.mem_singleton.mp member
        omega)
  obtain rfl := Option.some.inj (last.symm.trans computed)
  have long : decide (memsectorLongOffStart ≤ relOff (currentOffset second.1) first.2) = true := by
    rw [offset, relOff, memsectorLongOffStart]
    exact decide_eq_true (by omega)
  refine ⟨_, emitted, offset, ?_⟩
  rw [position, MemsectorHeader.size] at towerEnd
  rw [data, long, List.length_append, List.length_append, length_inodeBytes, List.length_flatMap,
    List.map_congr_left fun entry _ => length_entryBytes true entry, List.map_const', List.sum_replicate, smul_eq_mul,
    length_entriesOf (by rw [List.length_map, two]; rfl), two, offWidth, if_pos rfl]
  omega

/-- Byte 12 of a file is the lowest one of the high half of the size. -/
theorem holds_indexSize (header : MemsectorHeader) (data : List UInt8) :
    Bytes.Holds (header.bytes ++ data) 12 (Bytes.word 4 (header.indexSize / 256 ^ 4)) := by
  have whole : Bytes.Holds (header.bytes ++ data) 0 header.bytes := Bytes.holds_append [] header.bytes data
  have size := whole.split.2.split.2.split.1
  have parts : Bytes.word 8 header.indexSize =
      Bytes.word 4 header.indexSize ++ Bytes.word 4 (header.indexSize / 256 ^ 4) :=
    Bytes.word_add 4 4 header.indexSize
  rw [parts] at size
  have high := size.split.2
  simp only [Bytes.length_word, Nat.zero_add, Nat.reduceAdd] at high
  exact high

/-- A small index is addressed correctly. -/
theorem exportToMemsector_addressed_small : ∃ enough mswr file header,
    (∀ fuel, enough ≤ fuel →
      (deepIndex 1).exportToMemsector memsectorLongOffStart fuel create = some (mswr, file)) ∧
    MemsectorHeader.read file = some header ∧ Addressed (deepIndex 1) file header.rootOff := by
  obtain ⟨built, nonempty⟩ := deepIndex_built 1
  obtain ⟨enough, mswr, file, header, computed, read, addressed⟩ :=
    exportToMemsector_addressed_iff built.inserted nonempty
  refine ⟨enough, mswr, file, header, computed, read, addressed.mpr ?_⟩
  rw [imageSizeOf_deepIndex]
  decide

/-- The root of a tower of `2 ^ 30 - 2` symbols starts at byte `2 ^ 34 + 12`, and the header says `12`. -/
theorem deepIndex_not_addressed : ∃ enough mswr file header,
    (deepIndex (2 ^ 30 - 3)).Inserted ∧ ¬ (deepIndex (2 ^ 30 - 3)).IsEmpty ∧
    (∀ fuel, enough ≤ fuel →
      (deepIndex (2 ^ 30 - 3)).exportToMemsector memsectorLongOffStart fuel create = some (mswr, file)) ∧
    MemsectorHeader.read file = some header ∧ ¬ Addressed (deepIndex (2 ^ 30 - 3)) file header.rootOff := by
  generalize depthEq : 2 ^ 30 - 3 = depth
  obtain ⟨built, nonempty⟩ := deepIndex_built depth
  have shape := built.wellFormed nonempty
  obtain ⟨written, emitted, enough, computed⟩ := exportToMemsector_eq memsectorLongOffStart shape create
  refine ⟨enough, written.1, _, _, built.inserted, nonempty, computed, read_save emitted shape, fun addressed => ?_⟩
  have small := (addressed_iff shape emitted).mp addressed
  rw [imageSizeOf_deepIndex, MemsectorHeader.size] at small
  omega

end TmpIndex

end MathWebSearch
