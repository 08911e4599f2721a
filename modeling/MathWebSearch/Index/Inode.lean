/-
**The nodes of a memsector** (`mws/index/index.h`).

An internal node is eight bytes, two bits of type and 62 of size, followed by its entries, each a token and
an offset of four bytes, or of eight when the node is a long one. A leaf is eight bytes: type, hits and
formula id. Offsets are relative: a child lies `4 * off` bytes in front of its parent.

* `HoldsInode` — the image carries a node with the given entries; `entryToken_of_holds`,
  `entryOff_of_holds` and `inodeSize_of_holds` read them back.
* `getChildIn_of_holds` — the binary search finds the offset of a token among sorted entries, and the null
  offset for every other one.
-/

import MathWebSearch.Index.Memsector
import MathWebSearch.Library.BinarySearch
import MathWebSearch.Types.EncodedToken

namespace MathWebSearch

/-! ### The packed structs -/

/-- `INTERNAL_NODE`. -/
def internalNode : Nat := 1

/-- `LONG_INTERNAL_NODE`. -/
def longInternalNode : Nat := 2

/-- `LEAF_NODE`. -/
def leafNodeType : Nat := 3

/-- The type of an internal node. -/
def inodeType (long : Bool) : Nat := if long then longInternalNode else internalNode

/-- The bit-fields `type : 2` and `size : 62` of an internal node. -/
def inodeBytes (type size : Nat) : List UInt8 := Bytes.word 8 (type + 4 * size)

/-- The width of the offsets of a node. -/
def offWidth (long : Bool) : Nat := if long then 8 else 4

/-- `encoded_token_dict_entry_t` and `encoded_token_dict_entry_long_t`. -/
def entryBytes (long : Bool) (entry : EncodedToken × Nat) : List UInt8 :=
  entry.1.bytes ++ Bytes.word (offWidth long) entry.2

/-- `leaf_t`: the bit-fields `type : 2`, `num_hits : 30` and `formula_id : 32`. -/
def leafBytes (numHits formulaId : Nat) : List UInt8 :=
  Bytes.word 4 (leafNodeType + 4 * numHits) ++ Bytes.word 4 formulaId

@[simp] theorem length_inodeBytes (type size : Nat) : (inodeBytes type size).length = 8 := Bytes.length_word _ _

@[simp] theorem length_entryBytes (long : Bool) (entry : EncodedToken × Nat) :
    (entryBytes long entry).length = 4 + offWidth long := by
  simp [entryBytes, EncodedToken.bytes]

@[simp] theorem length_leafBytes (numHits formulaId : Nat) : (leafBytes numHits formulaId).length = 8 := by
  simp [leafBytes]

namespace Memsector

/-! ### Writing -/

/-- `memsector_write_inode_begin`; `longOffStart` is `MEMSECTOR_LONG_OFF_START`. -/
def writeInodeBegin (longOffStart : Nat) (msw : MemsectorWriter) (numChildren furthermostChildOff : Nat) :
    MemsectorWriter × Nat :=
  let msw := check msw (msw.entriesDelivered = 0)
  let msw := check msw (msw.entriesPromised = 0)
  let msw := { msw with entriesPromised := numChildren % 2 ^ 32 }
  let (msw, currOff) := getCurrentOffset msw
  let maxRelOff := (currOff + 2 ^ 64 - furthermostChildOff) % 2 ^ 64
  let msw := { msw with hasLongOffsets := decide (longOffStart ≤ maxRelOff) }
  (write msw (inodeBytes (inodeType msw.hasLongOffsets) (numChildren % 2 ^ 32)), currOff)

/-- `memsector_write_inode_encoded_token_entry`. -/
def writeInodeEncodedTokenEntry (msw : MemsectorWriter) (encodedToken : EncodedToken) (off : Nat) :
    MemsectorWriter :=
  let msw := check { msw with entriesDelivered := (msw.entriesDelivered + 1) % 2 ^ 32 }
    (msw.entriesDelivered < msw.entriesPromised)
  let msw := check msw (off ≠ 0)
  write msw (entryBytes msw.hasLongOffsets (encodedToken, off))

/-- `memsector_write_inode_end`. -/
def writeInodeEnd (msw : MemsectorWriter) : MemsectorWriter :=
  let msw := check msw (0 < msw.entriesDelivered)
  let msw := check msw (msw.entriesDelivered = msw.entriesPromised)
  { msw with entriesDelivered := 0, entriesPromised := 0 }

/-- `memsector_write_leaf`. -/
def writeLeaf (mswr : MemsectorWriter) (numHits formulaId : Nat) : MemsectorWriter × Nat :=
  let (mswr, off) := getCurrentOffset mswr
  let mswr := check mswr (mswr.entriesDelivered = 0)
  let mswr := check mswr (mswr.entriesPromised = 0)
  (write mswr (leafBytes numHits formulaId), off)

end Memsector

/-! ### Reading -/

section Reading

variable (image : List UInt8) (node : Nat)

/-- The two bits of the type, which every node starts with. -/
def nodeType : Option Nat := (Bytes.readWord image node 1).map (· % 4)

/-- `inode->size`. -/
def inodeSize : Option Nat := (Bytes.readWord image node 8).map (· / 4)

/-- The address of `inode->data[number]`. -/
def entryAddress (long : Bool) (number : Nat) : Nat := node + 8 + (4 + offWidth long) * number

/-- `inode->data[number].token`. -/
def entryToken (long : Bool) (number : Nat) : Option EncodedToken :=
  (Bytes.readWord image (entryAddress node long number) 4).map EncodedToken.unpack

/-- `inode->data[number].off`. -/
def entryOff (long : Bool) (number : Nat) : Option Nat :=
  Bytes.readWord image (entryAddress node long number + 4) (offWidth long)

/-- `leaf->num_hits`. -/
def leafNumHits : Option Nat := (Bytes.readWord image node 4).map (· / 4)

/-- `leaf->formula_id`. -/
def leafFormulaId : Option Nat := Bytes.readWord image (node + 4) 4

/-- The common body of the two functions below: a binary search with `int32_t` bounds. -/
def getChildIn (long : Bool) (token : EncodedToken) : Option Nat := do
  let size ← inodeSize image node
  let found ← BinarySearch.searchLoop EncodedToken.compare (entryToken image node long) token (size + 1) 0
    (Bytes.toInt32 (size + 2 ^ 64 - 1))
  match found with
  | some center => entryOff image node long center
  | none => return 0

/-- `inode_get_child`. -/
def inodeGetChild : EncodedToken → Option Nat := getChildIn image node false

/-- `inode_long_get_child`. -/
def inodeLongGetChild : EncodedToken → Option Nat := getChildIn image node true

end Reading

/-! ### What the image carries -/

/-- The image carries an internal node with the given entries. -/
def HoldsInode (image : List UInt8) (node : Nat) (long : Bool) (entries : List (EncodedToken × Nat)) : Prop :=
  Bytes.Holds image node
    (inodeBytes (inodeType long) entries.length ++ entries.flatMap (entryBytes long))

/-- The first byte of a word determines its two lowest bits. -/
theorem nodeType_of_holds {image : List UInt8} {node width value : Nat}
    (holds : Bytes.Holds image node (Bytes.word (width + 1) value)) : nodeType image node = some (value % 4) := by
  have first : Bytes.Holds image node (Bytes.word 1 value) :=
    (show Bytes.Holds image node (Bytes.word 1 value ++ Bytes.word width (value / 256)) from holds).split.1
  rw [nodeType, Bytes.readWord_of_holds first, Option.map_some]
  congr 1
  omega

namespace HoldsInode

variable {image : List UInt8} {node : Nat} {long : Bool} {entries : List (EncodedToken × Nat)}

theorem nodeType_eq (holds : HoldsInode image node long entries) :
    nodeType image node = some (inodeType long) := by
  rw [nodeType_of_holds (Bytes.Holds.split holds).1]
  cases long <;> simp [inodeType, internalNode, longInternalNode]

theorem inodeSize_eq (holds : HoldsInode image node long entries) (small : entries.length < 2 ^ 62) :
    inodeSize image node = some entries.length := by
  have type : inodeType long < 4 := by cases long <;> decide
  rw [inodeSize, Bytes.readWord_of_holds_of_lt (Bytes.Holds.split holds).1 (by omega), Option.map_some]
  congr 1
  omega

theorem entry (holds : HoldsInode image node long entries) {number : Nat} {entry : EncodedToken × Nat}
    (found : entries[number]? = some entry) :
    Bytes.Holds image (entryAddress node long number) (entryBytes long entry) := by
  have table := (Bytes.Holds.split holds).2
  rw [length_inodeBytes] at table
  exact table.flatMap (length_entryBytes long) found

theorem entryToken_eq (holds : HoldsInode image node long entries) {number : Nat} {entry : EncodedToken × Nat}
    (found : entries[number]? = some entry) : entryToken image node long number = some entry.1 := by
  have token := (Bytes.Holds.split (holds.entry found)).1
  rw [entryToken, Bytes.readWord_of_holds_of_lt token entry.1.packed_lt, Option.map_some,
    EncodedToken.unpack_packed]

theorem entryOff_eq (holds : HoldsInode image node long entries) {number : Nat} {entry : EncodedToken × Nat}
    (found : entries[number]? = some entry) (small : entry.2 < 256 ^ offWidth long) :
    entryOff image node long number = some entry.2 := by
  have off := (Bytes.Holds.split (holds.entry found)).2
  rw [EncodedToken.bytes, Bytes.length_word] at off
  exact Bytes.readWord_of_holds_of_lt off small

/-- **The binary search of a node**: the offset of the token's entry, or the null offset. -/
theorem getChildIn_eq (holds : HoldsInode image node long entries) (few : entries.length < 2 ^ 31)
    (sorted : BinarySearch.StrictlyIncreasing EncodedToken.compare (entries.map Prod.fst))
    (small : ∀ entry ∈ entries, entry.2 < 256 ^ offWidth long) (token : EncodedToken) :
    (∃ number : Nat, ∃ off, entries[number]? = some (token, off) ∧ getChildIn image node long token = some off) ∨
      (token ∉ entries.map Prod.fst ∧ getChildIn image node long token = some 0) := by
  have reads : ∀ position, position < (entries.map Prod.fst).length →
      entryToken image node long position = (entries.map Prod.fst)[position]? := by
    intro position inside
    rw [List.length_map] at inside
    rw [holds.entryToken_eq (List.getElem?_eq_getElem inside), List.getElem?_map,
      List.getElem?_eq_getElem inside, Option.map_some]
  have right : Bytes.toInt32 (entries.length + 2 ^ 64 - 1) = ((entries.map Prod.fst).length : Int) - 1 := by
    rw [List.length_map, Bytes.toInt32]
    split <;> omega
  have search : BinarySearch.searchLoop EncodedToken.compare (entryToken image node long) token
      (entries.length + 1) 0 (Bytes.toInt32 (entries.length + 2 ^ 64 - 1)) =
        BinarySearch.binarySearch EncodedToken.compare (entryToken image node long)
          (entries.map Prod.fst).length token := by
    rw [right, BinarySearch.binarySearch, List.length_map]
  have size := holds.inodeSize_eq (by omega)
  rcases BinarySearch.binarySearch_spec sorted reads token with ⟨number, found, atNumber⟩ | ⟨found, absent⟩
  · rw [List.getElem?_map, Option.map_eq_some_iff] at atNumber
    obtain ⟨⟨token', off⟩, atNumber, rfl⟩ := atNumber
    refine Or.inl ⟨number, off, atNumber, ?_⟩
    have read := holds.entryOff_eq atNumber (small _ (List.mem_of_getElem? atNumber))
    rw [getChildIn, size, Option.bind_eq_bind, Option.bind_some, search, found]
    exact read
  · refine Or.inr ⟨absent, ?_⟩
    rw [getChildIn, size, Option.bind_eq_bind, Option.bind_some, search, found]
    rfl

end HoldsInode

theorem nodeType_of_leaf {image : List UInt8} {node numHits formulaId : Nat}
    (holds : Bytes.Holds image node (leafBytes numHits formulaId)) :
    nodeType image node = some leafNodeType := by
  rw [nodeType_of_holds holds.split.1, leafNodeType]
  congr 1
  omega

theorem leafNumHits_of_leaf {image : List UInt8} {node numHits formulaId : Nat}
    (holds : Bytes.Holds image node (leafBytes numHits formulaId)) (small : numHits < 2 ^ 30) :
    leafNumHits image node = some numHits := by
  rw [leafNumHits, Bytes.readWord_of_holds_of_lt holds.split.1 (by unfold leafNodeType; omega), Option.map_some,
    leafNodeType]
  congr 1
  omega

theorem leafFormulaId_of_leaf {image : List UInt8} {node numHits formulaId : Nat}
    (holds : Bytes.Holds image node (leafBytes numHits formulaId)) (small : formulaId < 2 ^ 32) :
    leafFormulaId image node = some formulaId := by
  have id := holds.split.2
  rw [Bytes.length_word] at id
  exact Bytes.readWord_of_holds_of_lt id small

end MathWebSearch
