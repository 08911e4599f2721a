/-
**The accessor of the exported index** (`IndexAccessor.hpp`, `index_handle_t`).

Nodes are addresses in the loaded image. An iterator is a node with a position and the position behind the
last entry, both of type `int`; asking beyond an entry, an address in front of the image or a failed
`assert` is `none`.

* `simulates_indexAccessor` — where the image represents the index, the accessor answers whatever
  `TmpIndexAccessor` answers about inner nodes and leaves.
* `Bisimilar` — the two accessors cannot be told apart from their roots on: corresponding nodes list the
  same tokens in the same order, have corresponding children for every token, and corresponding leaves
  have the same id and count.
-/

import MathWebSearch.Index.Layout

namespace MathWebSearch

open TmpIndexNode Simulation

/-- `index_handle_t`: the loaded image and the address of the root. -/
structure IndexHandle where
  image : List UInt8
  root : Nat

/-- `ContainerIterator<_Iterator>`: the node, the current position and the end. -/
structure ImageIterator where
  node : Nat
  index : Int
  last : Int

namespace IndexHandle

variable (handle : IndexHandle)

/-- The two layouts a `switch` over the type tells apart; the default case is a failed assertion. -/
def isLong (node : Nat) : Option Bool := do
  let type ← nodeType handle.image node
  if type = internalNode then return false
  else if type = longInternalNode then return true
  else none

/-- A position that can be read. -/
def positionOf (it : ImageIterator) : Option Nat := if 0 ≤ it.index then some it.index.toNat else none

/-- `memsector_relOff2addr`, for an address inside the image. -/
def relOff2addr (node off : Nat) : Option Nat :=
  if memsectorAllocUnit * off ≤ node then some (node - memsectorAllocUnit * off) else none

/-- `assert(leaf->type == LEAF_NODE)`. -/
def assertLeaf (node : Nat) : Option Unit := do
  let type ← nodeType handle.image node
  if type = leafNodeType then return () else none

end IndexHandle

open IndexHandle

/-- `IndexAccessor`. -/
def indexAccessor : Accessor IndexHandle Nat ImageIterator where
  getRootNode handle := handle.root
  getChildrenIterator handle node := do
    let _ ← handle.isLong node
    let size ← inodeSize handle.image node
    return ⟨node, 0, Bytes.toInt32 size⟩
  hasNext it := it.index + 1 ≠ it.last
  next it := { it with index := it.index + 1 }
  getToken handle it := do
    let long ← handle.isLong it.node
    let number ← positionOf it
    entryToken handle.image it.node long number
  getNode handle it := do
    let long ← handle.isLong it.node
    let number ← positionOf it
    let off ← entryOff handle.image it.node long number
    if off ≠ 0 then relOff2addr it.node off else none
  getChild handle node token := do
    let long ← handle.isLong node
    let off ← (if long then inodeLongGetChild handle.image node token else inodeGetChild handle.image node token)
    if off = 0 then return none
    else
      let child ← relOff2addr node off
      return some child
  getFormulaId handle node := do
    handle.assertLeaf node
    leafFormulaId handle.image node
  getHitsCount handle node := do
    handle.assertLeaf node
    leafNumHits handle.image node

/-! ### An image that represents the index -/

/-- The numbers of a leaf fit their fields. -/
def Fits (leaf : TmpLeaf) : Prop := leaf.solutions < 2 ^ 30 ∧ leaf.id < 2 ^ 32

/-- A well-formed node of the index and the address at which the image represents it. -/
def Represents (known : TmpLeaf → Prop) (image : List UInt8) (node : TmpIndexNode) (address : Nat) : Prop :=
  (∃ opened, WellFormed opened node) ∧ TmpIndex.Rep known image node address

namespace Represents

variable {known : TmpLeaf → Prop} {handle : IndexHandle} {node : TmpIndexNode} {address : Nat}

/-- What is known of a represented inner node. -/
structure Inner (known : TmpLeaf → Prop) (handle : IndexHandle) (node : TmpIndexNode) (address : Nat) (long : Bool)
    (offsets : List Nat) : Prop where
  few : node.children.length < 2 ^ 31
  same : offsets.length = node.children.length
  holds : HoldsInode handle.image address long (TmpIndex.entriesOf node.children offsets)
  bounds : ∀ off ∈ offsets, 0 < off ∧ 4 * off ≤ address ∧ off < 256 ^ offWidth long
  child : ∀ (number : Nat) (entry : EncodedToken × TmpIndexNode) (off : Nat), node.children[number]? = some entry →
    offsets[number]? = some off → Represents known handle.image entry.2 (address - 4 * off)

theorem inner (represents : Represents known handle.image node address) (nonempty : node.children ≠ []) :
    ∃ long offsets, Inner known handle node address long offsets := by
  obtain ⟨⟨opened, shape⟩, rep⟩ := represents
  cases rep with
  | leaf => exact absurd rfl nonempty
  | @inner children _ long offsets _ few same holds bounds below =>
    refine ⟨long, offsets, few, same, holds, bounds, fun number entry off atChild atOffset => ⟨?_, ?_⟩⟩
    · cases shape with
      | inner _ _ shapes => exact ⟨_, shapes entry (List.mem_of_getElem? atChild)⟩
    · exact below number entry off atChild atOffset

theorem leaf {leaf : TmpLeaf} (represents : Represents known handle.image node address)
    (isLeaf : node.leaf = some leaf) :
    Bytes.Holds handle.image address (leafBytes leaf.solutions leaf.id) ∧ known leaf := by
  obtain ⟨_, rep⟩ := represents
  cases rep with
  | leaf holds fits =>
    obtain rfl := Option.some.inj isLeaf
    exact ⟨holds, fits⟩
  | inner => cases isLeaf

namespace Inner

variable {long : Bool} {offsets : List Nat}

theorem isLong_eq (inner : Inner known handle node address long offsets) : handle.isLong address = some long := by
  rw [isLong, inner.holds.nodeType_eq]
  cases long <;> rfl

theorem entry_at (inner : Inner known handle node address long offsets) {number : Nat}
    {entry : EncodedToken × TmpIndexNode} (atChild : node.children[number]? = some entry) :
    ∃ off, offsets[number]? = some off ∧
      (TmpIndex.entriesOf node.children offsets)[number]? = some (entry.1, off) := by
  have inside : number < offsets.length := by
    rw [inner.same]
    exact (List.getElem?_eq_some_iff.mp atChild).1
  have atOffset := List.getElem?_eq_getElem inside
  exact ⟨_, atOffset, TmpIndex.getElem?_entriesOf atChild atOffset⟩

/-- The address of a child. -/
theorem relOff2addr_eq (inner : Inner known handle node address long offsets) {off : Nat} (member : off ∈ offsets) :
    off ≠ 0 ∧ relOff2addr address off = some (address - 4 * off) := by
  obtain ⟨positive, inside, _⟩ := inner.bounds off member
  exact ⟨by omega, if_pos inside⟩

/-- Looking up a token in the two layouts is one search. -/
theorem getChild_of_search (inner : Inner known handle node address long offsets) {token : EncodedToken} {off : Nat}
    (found : getChildIn handle.image address long token = some off) :
    indexAccessor.getChild handle address token =
      if off = 0 then some none else (relOff2addr address off).map some := by
  have layout : (if long then inodeLongGetChild handle.image address token
      else inodeGetChild handle.image address token) = some off := by
    cases long <;> exact found
  simp only [indexAccessor, inner.isLong_eq, Option.bind_eq_bind, Option.bind_some, layout]
  split
  · rfl
  · cases relOff2addr address off <;> rfl

/-- The search finds the entry of the token, if there is one. -/
theorem search_eq (inner : Inner known handle node address long offsets)
    (sorted : VectorMap.Sorted EncodedToken.compare node.children) (token : EncodedToken) :
    (∃ (number : Nat) (next : TmpIndexNode) (off : Nat), node.children[number]? = some (token, next) ∧
        offsets[number]? = some off ∧ getChildIn handle.image address long token = some off) ∨
      (token ∉ node.children.map Prod.fst ∧ getChildIn handle.image address long token = some 0) := by
  have increasing : BinarySearch.StrictlyIncreasing EncodedToken.compare
      ((TmpIndex.entriesOf node.children offsets).map Prod.fst) := by
    rw [TmpIndex.map_fst_entriesOf inner.same]
    exact sorted
  have search := inner.holds.getChildIn_eq
    (by rw [TmpIndex.length_entriesOf inner.same]; exact inner.few) increasing
    (fun entry member => (inner.bounds entry.2 (List.of_mem_zip member).2).2.2) token
  rcases search with ⟨number, off, atEntry, found⟩ | ⟨absent, found⟩
  · rw [TmpIndex.entriesOf, List.getElem?_zip_eq_some, List.getElem?_map, Option.map_eq_some_iff] at atEntry
    obtain ⟨⟨entry, atChild, rfl⟩, atOffset⟩ := atEntry
    exact Or.inl ⟨number, entry.2, off, atChild, atOffset, found⟩
  · rw [TmpIndex.map_fst_entriesOf inner.same] at absent
    exact Or.inr ⟨absent, found⟩

/-- Looking up the token of an entry finds the address of its child. -/
theorem getChild_at (inner : Inner known handle node address long offsets)
    (sorted : VectorMap.Sorted EncodedToken.compare node.children) {number off : Nat}
    {entry : EncodedToken × TmpIndexNode} (atChild : node.children[number]? = some entry)
    (atOffset : offsets[number]? = some off) :
    indexAccessor.getChild handle address entry.1 = some (some (address - 4 * off)) := by
  have inside : (node.children.map Prod.fst)[number]? = some entry.1 := by
    rw [List.getElem?_map, atChild, Option.map_some]
  rcases inner.search_eq sorted entry.1 with ⟨number', next, off', atChild', atOffset', found⟩ | ⟨absent, _⟩
  · have inside' : (node.children.map Prod.fst)[number']? = some entry.1 := by
      rw [List.getElem?_map, atChild', Option.map_some]
    obtain ⟨bound, _⟩ := List.getElem?_eq_some_iff.mp inside
    have same : number = number' := (List.getElem?_inj bound sorted.nodup).mp (inside.trans inside'.symm)
    subst same
    obtain rfl := Option.some.inj (atOffset.symm.trans atOffset')
    obtain ⟨nonnull, addressOf⟩ := inner.relOff2addr_eq (List.mem_of_getElem? atOffset)
    rw [inner.getChild_of_search found, if_neg nonnull, addressOf, Option.map_some]
  · exact absurd (List.mem_of_getElem? inside) absent

end Inner

/-- **Looking up a token** in a represented inner node. -/
theorem getChild_eq (represents : Represents known handle.image node address) (nonempty : node.children ≠ [])
    (token : EncodedToken) : ∃ child, indexAccessor.getChild handle address token = some child ∧
      Option.Rel (Represents known handle.image) (node.child token) child := by
  obtain ⟨long, offsets, inner⟩ := represents.inner nonempty
  obtain ⟨⟨opened, shape⟩, _⟩ := represents
  rcases inner.search_eq shape.sorted token with ⟨number, next, off, atChild, atOffset, _⟩ | ⟨absent, found⟩
  · have found := inner.getChild_at shape.sorted atChild atOffset
    refine ⟨_, found, ?_⟩
    have below := shape.child_of_mem (List.mem_of_getElem? atChild)
    rw [below]
    exact .some (inner.child number (token, next) off atChild atOffset)
  · refine ⟨none, by rw [inner.getChild_of_search found, if_pos rfl], ?_⟩
    have missing : node.child token = none := (VectorMap.find_eq_none_iff shape.sorted).mpr absent
    rw [missing]
    exact .none

/-- Reading a represented leaf. -/
theorem leaf_eq {leaf : TmpLeaf} (represents : Represents Fits handle.image node address)
    (isLeaf : node.leaf = some leaf) : indexAccessor.getFormulaId handle address = some leaf.id ∧
      indexAccessor.getHitsCount handle address = some leaf.solutions := by
  obtain ⟨holds, hits, id⟩ := represents.leaf isLeaf
  have type : handle.assertLeaf address = some () := by
    rw [assertLeaf, nodeType_of_leaf holds]
    rfl
  constructor
  · simp only [indexAccessor, type, Option.bind_eq_bind, Option.bind_some]
    exact leafFormulaId_of_leaf holds id
  · simp only [indexAccessor, type, Option.bind_eq_bind, Option.bind_some]
    exact leafNumHits_of_leaf holds hits

end Represents

/-- An iterator over the children vector and one over the entries of the node, at the same position. -/
def SamePosition (handle : IndexHandle) (iterator : TmpIterator) (it : ImageIterator) : Prop :=
  ∃ (node : TmpIndexNode) (number : Nat), Represents Fits handle.image node it.node ∧
    number < node.children.length ∧ iterator = node.children.drop number ∧ it.index = number ∧
    it.last = node.children.length

namespace SamePosition

variable {handle : IndexHandle} {iterator : TmpIterator} {it : ImageIterator}

/-- The entry at the position. -/
theorem entry (same : SamePosition handle iterator it) : ∃ entry address, iterator.head? = some entry ∧
    indexAccessor.getToken handle it = some entry.1 ∧ indexAccessor.getNode handle it = some address ∧
    Represents Fits handle.image entry.2 address := by
  obtain ⟨node, number, represents, inside, rfl, index, last⟩ := same
  have nonempty : node.children ≠ [] := by
    intro empty
    rw [empty] at inside
    exact absurd inside (Nat.not_lt_zero _)
  obtain ⟨long, offsets, inner⟩ := represents.inner nonempty
  have atChild := List.getElem?_eq_getElem inside
  obtain ⟨off, atOffset, atEntry⟩ := inner.entry_at atChild
  obtain ⟨nonnull, addressOf⟩ := inner.relOff2addr_eq (List.mem_of_getElem? atOffset)
  have position : positionOf it = some number := by
    rw [positionOf, index, if_pos (Int.natCast_nonneg _), Int.toNat_natCast]
  refine ⟨_, it.node - 4 * off, by rw [List.head?_drop]; exact atChild, ?_, ?_, ?_⟩
  · simp only [indexAccessor, inner.isLong_eq, position, Option.bind_eq_bind, Option.bind_some]
    exact inner.holds.entryToken_eq atEntry
  · have read := inner.holds.entryOff_eq atEntry (inner.bounds off (List.mem_of_getElem? atOffset)).2.2
    simp only [indexAccessor, inner.isLong_eq, position, Option.bind_eq_bind, Option.bind_some, read]
    rw [if_pos nonnull, addressOf]
  · exact inner.child number _ off atChild atOffset

theorem hasNext_eq (same : SamePosition handle iterator it) :
    indexAccessor.hasNext it = !iterator.tail.isEmpty := by
  obtain ⟨node, number, _, inside, rfl, index, last⟩ := same
  rw [List.tail_drop]
  simp only [indexAccessor, index, last]
  by_cases more : number + 1 = node.children.length
  · rw [List.drop_eq_nil_of_le more.ge]
    simp [← more]
  · have nonempty : node.children.drop (number + 1) ≠ [] := by
      rw [Ne, List.drop_eq_nil_iff]
      omega
    have different : ((number : Int) + 1 ≠ (node.children.length : Int)) := by omega
    simp only [List.isEmpty_eq_false_iff.mpr nonempty, Bool.not_false, decide_eq_true_eq]
    exact different

theorem next (same : SamePosition handle iterator it) (more : iterator.tail ≠ []) :
    SamePosition handle iterator.tail (indexAccessor.next it) := by
  obtain ⟨node, number, represents, inside, rfl, index, last⟩ := same
  rw [List.tail_drop] at more ⊢
  refine ⟨node, number + 1, represents, ?_, rfl, ?_, last⟩
  · by_contra outside
    exact more (List.drop_eq_nil_of_le (by omega))
  · simp only [indexAccessor, index]
    push_cast
    rfl

end SamePosition

/-- The iterator over the entries of a represented inner node. -/
theorem Represents.getChildrenIterator_eq {handle : IndexHandle} {node : TmpIndexNode} {address : Nat}
    (represents : Represents Fits handle.image node address) (nonempty : node.children ≠ []) :
    ∃ it, indexAccessor.getChildrenIterator handle address = some it ∧
      SamePosition handle node.children it := by
  obtain ⟨long, offsets, inner⟩ := represents.inner nonempty
  have size : inodeSize handle.image address = some node.children.length := by
    have few := inner.few
    rw [inner.holds.inodeSize_eq (by rw [TmpIndex.length_entriesOf inner.same]; omega),
      TmpIndex.length_entriesOf inner.same]
  refine ⟨⟨address, 0, node.children.length⟩, ?_, node, 0, represents, List.length_pos_iff.mpr nonempty,
    List.drop_zero.symm, rfl, rfl⟩
  simp only [indexAccessor, inner.isLong_eq, size, Option.bind_eq_bind, Option.bind_some,
    Bytes.toInt32_of_lt inner.few]
  rfl

/-- **The accessor of the image answers what `TmpIndexAccessor` answers**, where the image represents the
root. -/
theorem simulates_indexAccessor {index : TmpIndex} {handle : IndexHandle}
    (root : Represents Fits handle.image index.root handle.root) :
    Simulates strictAccessor indexAccessor index handle (Represents Fits handle.image) (SamePosition handle) where
  root := root
  children := by
    intro node address represents iterator computed
    simp only [strictAccessor_getChildrenIterator] at computed
    split at computed
    · cases computed
    · next nonempty =>
      obtain rfl := Option.some.inj computed
      exact represents.getChildrenIterator_eq fun empty => nonempty (List.isEmpty_iff.mpr empty)
  hasNext := fun same => same.hasNext_eq.symm
  next := by
    intro iterator it same more
    refine same.next fun empty => ?_
    simp [empty] at more
  token := by
    intro iterator it same token computed
    obtain ⟨entry, address, atHead, read, _⟩ := same.entry
    simp only [strictAccessor_getToken, atHead, Option.map_some] at computed
    exact ⟨entry.1, read, (Option.some.inj computed).symm⟩
  node := by
    intro iterator it same node computed
    obtain ⟨entry, address, atHead, _, read, represents⟩ := same.entry
    simp only [strictAccessor_getNode, atHead, Option.map_some] at computed
    exact ⟨address, read, Option.some.inj computed ▸ represents⟩
  child := by
    intro node address represents token child computed
    simp only [strictAccessor_getChild] at computed
    split at computed
    · cases computed
    · next nonempty =>
      obtain rfl := Option.some.inj computed
      exact represents.getChild_eq (fun empty => nonempty (List.isEmpty_iff.mpr empty)) token
  formulaId := by
    intro node address represents id computed
    obtain ⟨leaf, isLeaf, rfl⟩ := Option.map_eq_some_iff.mp computed
    exact ⟨leaf.id, (represents.leaf_eq isLeaf).1, rfl⟩
  hitsCount := by
    intro node address represents count computed
    obtain ⟨leaf, isLeaf, rfl⟩ := Option.map_eq_some_iff.mp computed
    exact ⟨leaf.solutions, (represents.leaf_eq isLeaf).2, rfl⟩

/-! ### Bisimilarity -/

/-- The tokens and nodes an iterator goes through, from its current entry on. -/
def Accessor.entries {Index Node Iterator : Type} (A : Accessor Index Node Iterator) (index : Index) :
    Nat → Iterator → Option (List (EncodedToken × Node))
  | 0, _ => none
  | fuel + 1, it => do
    let token ← A.getToken index it
    let node ← A.getNode index it
    if A.hasNext it then
      let rest ← A.entries index fuel (A.next it)
      return (token, node) :: rest
    else return [(token, node)]

/-- Corresponding leaves: the same formula id and the same number of hits. -/
def SameLeaf (index : TmpIndex) (handle : IndexHandle) (node : TmpIndexNode) (address : Nat) : Prop :=
  ∃ id hits, tmpIndexAccessor.getFormulaId index node = some id ∧
    indexAccessor.getFormulaId handle address = some id ∧
    tmpIndexAccessor.getHitsCount index node = some hits ∧
    indexAccessor.getHitsCount handle address = some hits

/-- Corresponding inner nodes: the same tokens in the same order, with corresponding nodes, and for every
token corresponding answers of `getChild`. -/
def SameInner (index : TmpIndex) (handle : IndexHandle) (R : TmpIndexNode → Nat → Prop) (node : TmpIndexNode)
    (address : Nat) : Prop :=
  (∃ iterator it fuel list list', tmpIndexAccessor.getChildrenIterator index node = some iterator ∧
    indexAccessor.getChildrenIterator handle address = some it ∧
    tmpIndexAccessor.entries index fuel iterator = some list ∧
    indexAccessor.entries handle fuel it = some list' ∧
    List.Forall₂ (fun entry entry' => entry.1 = entry'.1 ∧ R entry.2 entry'.2) list list') ∧
  ∀ token, ∃ child child', tmpIndexAccessor.getChild index node token = some child ∧
    indexAccessor.getChild handle address token = some child' ∧ Option.Rel R child child'

/-- **The two accessors cannot be told apart** from their roots on. -/
def Bisimilar (index : TmpIndex) (handle : IndexHandle) : Prop :=
  ∃ R : TmpIndexNode → Nat → Prop,
    R (tmpIndexAccessor.getRootNode index) (indexAccessor.getRootNode handle) ∧
    ∀ node address, R node address →
      SameLeaf index handle node address ∨ SameInner index handle R node address

/-- Iterators at the same position go through corresponding entries. -/
theorem SamePosition.entries (index : TmpIndex) {handle : IndexHandle} (iterator : TmpIterator) :
    ∀ {it : ImageIterator}, SamePosition handle iterator it →
      tmpIndexAccessor.entries index iterator.length iterator = some iterator ∧
      ∃ list', indexAccessor.entries handle iterator.length it = some list' ∧
        List.Forall₂ (fun entry entry' => entry.1 = entry'.1 ∧ Represents Fits handle.image entry.2 entry'.2)
          iterator list' := by
  induction iterator with
  | nil =>
    intro it same
    obtain ⟨entry, _, atHead, _⟩ := same.entry
    cases atHead
  | cons entry rest ih =>
    intro it same
    obtain ⟨entry', address, atHead, token, node, represents⟩ := same.entry
    obtain rfl : entry = entry' := Option.some.inj atHead
    have hasNext := same.hasNext_eq
    rw [List.tail_cons] at hasNext
    cases rest with
    | nil =>
      refine ⟨rfl, [(entry.1, address)], ?_, .cons ⟨rfl, represents⟩ .nil⟩
      simp only [Accessor.entries, List.length_cons, token, node, hasNext, Option.bind_eq_bind,
        Option.bind_some]
      rfl
    | cons second rest =>
      obtain ⟨inMemory, list', onImage, related⟩ := ih (same.next (by simp))
      refine ⟨?_, (entry.1, address) :: list', ?_, .cons ⟨rfl, represents⟩ related⟩
      · rw [List.length_cons, Accessor.entries]
        simp only [tmpIndexAccessor_getToken, tmpIndexAccessor_getNode, tmpIndexAccessor_hasNext,
          tmpIndexAccessor_next, List.head?_cons, List.tail_cons, Option.map_some, Option.bind_eq_bind,
          Option.bind_some, inMemory]
        rfl
      · rw [List.length_cons, Accessor.entries, token, node, hasNext]
        simp only [Option.bind_eq_bind, Option.bind_some, List.isEmpty_cons, Bool.not_false, if_true, onImage]
        rfl

/-- **An image that represents the root is bisimilar to the index.** -/
theorem bisimilar_of_represents {index : TmpIndex} {handle : IndexHandle}
    (root : Represents Fits handle.image index.root handle.root) : Bisimilar index handle := by
  refine ⟨Represents Fits handle.image, root, fun node address represents => ?_⟩
  by_cases inner : node.children = []
  · obtain ⟨leaf, isLeaf⟩ : ∃ leaf, node.leaf = some leaf := by
      obtain ⟨⟨opened, shape⟩, _⟩ := represents
      cases shape with
      | leaf leaf => exact ⟨leaf, rfl⟩
      | inner nonempty => exact absurd inner nonempty
    obtain ⟨id, hits⟩ := represents.leaf_eq isLeaf
    exact Or.inl ⟨leaf.id, leaf.solutions, by simp [isLeaf], id, by simp [isLeaf], hits⟩
  · obtain ⟨it, iterates, same⟩ := represents.getChildrenIterator_eq inner
    obtain ⟨inMemory, list', onImage, related⟩ := same.entries index node.children
    refine Or.inr ⟨⟨node.children, it, _, _, list', rfl, iterates, inMemory, onImage, related⟩, fun token => ?_⟩
    obtain ⟨child', found, rel⟩ := represents.getChild_eq inner token
    exact ⟨node.child token, child', rfl, found, rel⟩

end MathWebSearch
