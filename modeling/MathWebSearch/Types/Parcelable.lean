/-
**Parcels** (`common/types/Parcelable.{hpp,cpp}`, `mws/types/FormulaPath.hpp`).

A parcel is a buffer of bytes. A string in it is its size, a `size_t` of eight bytes with the lowest first, and then its
characters; a `FormulaPath` is its two strings. The allocator adds up the sizes, the encoder writes into a buffer of the
size that was reserved, and the decoder reads from the front. `none` is a failed assertion or an access outside the
buffer.

* `decodeString_encoded`, `decodeFormulaPath_encoded` — what was written is read back.
* `parcel_roundTrip` — **any list of items** fills the parcel that was reserved for it, and is read back from it.
-/

import MathWebSearch.Dbc.MemDb
import MathWebSearch.Library.Bytes

namespace MathWebSearch

/-- `sizeof(size_t)`. -/
def sizeofSizeT : Nat := 8

/-- The bytes of a `size_t`. -/
def sizeBytes (size : Nat) : Str := (Bytes.word sizeofSizeT size).map fun byte => Char.ofNat byte.toNat

/-- The `size_t` that bytes are copied to. -/
def sizeOfBytes (bytes : Str) : Nat := Bytes.number (bytes.map fun byte => UInt8.ofNat byte.toNat)

theorem length_sizeBytes (size : Nat) : (sizeBytes size).length = sizeofSizeT := by
  rw [sizeBytes, List.length_map, Bytes.length_word]

theorem sizeOfBytes_sizeBytes {size : Nat} (small : size < 2 ^ 64) : sizeOfBytes (sizeBytes size) = size := by
  have same : ((fun byte : Char => UInt8.ofNat byte.toNat) ∘ fun byte : UInt8 => Char.ofNat byte.toNat) = id := by
    funext byte
    have valid : byte.toNat.isValidChar := .inl (lt_trans byte.toNat_lt (by decide))
    have code : (Char.ofNat byte.toNat).toNat = byte.toNat := by
      rw [Char.ofNat, dif_pos valid]
      rfl
    show UInt8.ofNat (Char.ofNat byte.toNat).toNat = byte
    rw [code, UInt8.ofNat_toNat]
  rw [sizeOfBytes, sizeBytes, List.map_map, same, List.map_id]
  exact Bytes.number_word_of_lt small

/-! ### The allocator -/

/-- `ParcelAllocator`: `mSize`. -/
structure ParcelAllocator where
  size : Nat

namespace ParcelAllocator

def new : ParcelAllocator := ⟨0⟩

/-- `reserve` for a string. -/
def reserveString (self : ParcelAllocator) (str : Str) : ParcelAllocator :=
  ⟨(self.size + (sizeofSizeT + str.length)) % 2 ^ 64⟩

/-- `FormulaPath::getParcelableSize`. -/
def getParcelableSize (path : FormulaPath) : Nat := ((new.reserveString path.xmlId).reserveString path.xpath).size

/-- `reserve` for a `FormulaPath`. -/
def reserveFormulaPath (self : ParcelAllocator) (path : FormulaPath) : ParcelAllocator :=
  ⟨(self.size + getParcelableSize path) % 2 ^ 64⟩

end ParcelAllocator

/-! ### The encoder -/

/-- `ParcelEncoder`: the size of the buffer and what is written up to `mCurr`. -/
structure ParcelEncoder where
  size : Nat
  written : Str

namespace ParcelEncoder

def new (allocator : ParcelAllocator) : ParcelEncoder := ⟨allocator.size, []⟩

/-- `encode` for a string. -/
def encodeString (self : ParcelEncoder) (str : Str) : Option ParcelEncoder :=
  let written := self.written ++ sizeBytes str.length ++ str
  if written.length ≤ self.size then some { self with written } else none

/-- `encode` for a `FormulaPath`, which writes its strings with `writeToParcel`. -/
def encodeFormulaPath (self : ParcelEncoder) (path : FormulaPath) : Option ParcelEncoder := do
  let self ← self.encodeString path.xmlId
  self.encodeString path.xpath

/-- `getData` with `getSize`: the buffer, which has to be full. -/
def getData (self : ParcelEncoder) : Option Str := if self.written.length = self.size then some self.written else none

end ParcelEncoder

/-! ### The decoder -/

namespace ParcelDecoder

/-- `decode` for a string: what is read, and what stands behind `mCurr`. -/
def decodeString (data : Str) : Option (Str × Str) :=
  if data.length < sizeofSizeT then none
  else
    let size := sizeOfBytes (data.take sizeofSizeT)
    let rest := data.drop sizeofSizeT
    if rest.length < size then none else some (rest.take size, rest.drop size)

/-- `decode` for a `FormulaPath`, which reads its strings with `readFromParcel`. -/
def decodeFormulaPath (data : Str) : Option (FormulaPath × Str) := do
  let (xmlId, data) ← decodeString data
  let (xpath, data) ← decodeString data
  return (⟨xmlId, xpath⟩, data)

end ParcelDecoder

/-! ### Round trips -/

/-- The bytes of a string in a parcel. -/
def parcelBytes (str : Str) : Str := sizeBytes str.length ++ str

theorem length_parcelBytes (str : Str) : (parcelBytes str).length = sizeofSizeT + str.length := by
  rw [parcelBytes, List.length_append, length_sizeBytes]

theorem encodeString_eq (self : ParcelEncoder) (str : Str)
    (fits : self.written.length + (parcelBytes str).length ≤ self.size) :
    self.encodeString str = some { self with written := self.written ++ parcelBytes str } := by
  unfold ParcelEncoder.encodeString
  rw [List.append_assoc, ← parcelBytes]
  exact if_pos (by rwa [List.length_append])

/-- **A string is read back.** -/
theorem decodeString_encoded {str : Str} (small : str.length < 2 ^ 64) (rest : Str) :
    ParcelDecoder.decodeString (parcelBytes str ++ rest) = some (str, rest) := by
  have front : (sizeBytes str.length).length = sizeofSizeT := length_sizeBytes _
  unfold ParcelDecoder.decodeString parcelBytes
  rw [List.append_assoc, if_neg (by rw [List.length_append, front]; omega)]
  simp only [List.take_left' front, List.drop_left' front, sizeOfBytes_sizeBytes small]
  rw [if_neg (by rw [List.length_append]; omega), List.take_left, List.drop_left]

/-- **A `FormulaPath` is read back.** -/
theorem decodeFormulaPath_encoded {path : FormulaPath} (small : path.xmlId.length < 2 ^ 64)
    (small' : path.xpath.length < 2 ^ 64) (rest : Str) :
    ParcelDecoder.decodeFormulaPath (parcelBytes path.xmlId ++ parcelBytes path.xpath ++ rest) = some (path, rest) := by
  have second := decodeString_encoded small' rest
  rw [List.append_assoc, ParcelDecoder.decodeFormulaPath, decodeString_encoded small]
  simp only [Option.bind_eq_bind, Option.bind_some, second]
  rfl

/-! ### Lists of items -/

/-- What can be put into a parcel. -/
inductive ParcelItem where
  | string (str : Str)
  | formulaPath (path : FormulaPath)
deriving DecidableEq

/-- What a decoder can be asked for. -/
inductive ParcelKind where
  | string
  | formulaPath

namespace ParcelItem

def kind : ParcelItem → ParcelKind
  | string _ => .string
  | formulaPath _ => .formulaPath

/-- The bytes of an item in a parcel. -/
def bytes : ParcelItem → Str
  | string str => parcelBytes str
  | formulaPath path => parcelBytes path.xmlId ++ parcelBytes path.xpath

end ParcelItem

/-- `reserve`. -/
def ParcelAllocator.reserve (self : ParcelAllocator) : ParcelItem → ParcelAllocator
  | .string str => self.reserveString str
  | .formulaPath path => self.reserveFormulaPath path

/-- `encode`. -/
def ParcelEncoder.encode (self : ParcelEncoder) : ParcelItem → Option ParcelEncoder
  | .string str => self.encodeString str
  | .formulaPath path => self.encodeFormulaPath path

/-- `decode`. -/
def ParcelDecoder.decode : ParcelKind → Str → Option (ParcelItem × Str)
  | .string, data => (decodeString data).map fun read => (.string read.1, read.2)
  | .formulaPath, data => (decodeFormulaPath data).map fun read => (.formulaPath read.1, read.2)

/-- Several calls of `decode`, one after the other. -/
def ParcelDecoder.decodeItems : List ParcelKind → Str → Option (List ParcelItem × Str)
  | [], data => some ([], data)
  | kind :: kinds, data => do
    let (item, data) ← decode kind data
    let (items, data) ← decodeItems kinds data
    return (item :: items, data)

/-- The bytes of a list of items. -/
def itemsBytes (items : List ParcelItem) : Str := items.flatMap ParcelItem.bytes

theorem reserve_eq {self : ParcelAllocator} {item : ParcelItem} (small : self.size + item.bytes.length < 2 ^ 64) :
    self.reserve item = ⟨self.size + item.bytes.length⟩ := by
  cases item with
  | string str =>
    rw [ParcelItem.bytes, length_parcelBytes] at small ⊢
    rw [ParcelAllocator.reserve, ParcelAllocator.reserveString, Nat.mod_eq_of_lt small]
  | formulaPath path =>
    rw [ParcelItem.bytes, List.length_append, length_parcelBytes, length_parcelBytes] at small ⊢
    rw [ParcelAllocator.reserve, ParcelAllocator.reserveFormulaPath]
    unfold ParcelAllocator.getParcelableSize ParcelAllocator.reserveString ParcelAllocator.new
    congr 1
    simp only []
    omega

/-- The allocator adds up the sizes. -/
theorem foldl_reserve (items : List ParcelItem) : ∀ {self : ParcelAllocator},
    self.size + (itemsBytes items).length < 2 ^ 64 →
      items.foldl ParcelAllocator.reserve self = ⟨self.size + (itemsBytes items).length⟩ := by
  induction items with
  | nil => intro self _; rfl
  | cons item rest ih =>
    intro self small
    rw [itemsBytes, List.flatMap_cons, List.length_append, ← itemsBytes] at small ⊢
    rw [List.foldl_cons, reserve_eq (by omega), ih (by simp only []; omega), Nat.add_assoc]

/-- An item for which there is room is written. -/
theorem encode_eq {self : ParcelEncoder} {item : ParcelItem}
    (fits : self.written.length + item.bytes.length ≤ self.size) :
    self.encode item = some { self with written := self.written ++ item.bytes } := by
  cases item with
  | string str => exact encodeString_eq self str fits
  | formulaPath path =>
    rw [ParcelItem.bytes, List.length_append] at fits
    have first := encodeString_eq self path.xmlId (by omega)
    have second := encodeString_eq { self with written := self.written ++ parcelBytes path.xmlId } path.xpath (by
      show (self.written ++ parcelBytes path.xmlId).length + _ ≤ self.size
      rw [List.length_append]
      omega)
    rw [ParcelEncoder.encode, ParcelEncoder.encodeFormulaPath, first]
    show ParcelEncoder.encodeString _ _ = _
    rw [second, ParcelItem.bytes, List.append_assoc]

theorem foldlM_encode (items : List ParcelItem) : ∀ {self : ParcelEncoder},
    self.written.length + (itemsBytes items).length ≤ self.size →
      items.foldlM ParcelEncoder.encode self = some { self with written := self.written ++ itemsBytes items } := by
  induction items with
  | nil =>
    intro self _
    rw [itemsBytes, List.flatMap_nil, List.append_nil]
    rfl
  | cons item rest ih =>
    intro self fits
    rw [itemsBytes, List.flatMap_cons, List.length_append, ← itemsBytes] at fits
    have behind := @ih { self with written := self.written ++ item.bytes } (by
      show (self.written ++ item.bytes).length + _ ≤ self.size
      rw [List.length_append]
      omega)
    rw [List.foldlM_cons, encode_eq (by omega)]
    show rest.foldlM ParcelEncoder.encode _ = _
    rw [behind, List.append_assoc]
    rfl

/-- An item is read back. -/
theorem decode_encoded {item : ParcelItem} (small : item.bytes.length < 2 ^ 64) (rest : Str) :
    ParcelDecoder.decode item.kind (item.bytes ++ rest) = some (item, rest) := by
  cases item with
  | string str =>
    rw [ParcelItem.bytes, length_parcelBytes] at small
    rw [ParcelItem.kind, ParcelItem.bytes, ParcelDecoder.decode, decodeString_encoded (by omega)]
    rfl
  | formulaPath path =>
    rw [ParcelItem.bytes, List.length_append, length_parcelBytes, length_parcelBytes] at small
    rw [ParcelItem.kind, ParcelItem.bytes, ParcelDecoder.decode,
      decodeFormulaPath_encoded (by omega) (by omega)]
    rfl

theorem decodeItems_encoded (items : List ParcelItem) (small : (itemsBytes items).length < 2 ^ 64) (rest : Str) :
    ParcelDecoder.decodeItems (items.map ParcelItem.kind) (itemsBytes items ++ rest) = some (items, rest) := by
  induction items with
  | nil => rfl
  | cons item others ih =>
    rw [itemsBytes, List.flatMap_cons, ← itemsBytes] at small ⊢
    rw [List.length_append] at small
    rw [List.map_cons, ParcelDecoder.decodeItems, List.append_assoc, decode_encoded (by omega)]
    show (ParcelDecoder.decodeItems _ _).bind _ = _
    rw [ih (by omega)]
    rfl

/-- **Parcels.** Whatever items are reserved and then encoded in order, of less than `2 ^ 64` bytes in all: no assertion
fails and nothing is written outside the buffer, which is full at the end and has the size that was reserved; a decoder
that is asked for the same kinds of items gives them back, stays inside the bytes and has read them all. -/
theorem parcel_roundTrip (items : List ParcelItem) (small : (itemsBytes items).length < 2 ^ 64) :
    ∃ encoder data,
      items.foldlM ParcelEncoder.encode (.new (items.foldl ParcelAllocator.reserve .new)) = some encoder ∧
      encoder.getData = some data ∧
      data.length = (items.foldl ParcelAllocator.reserve .new).size ∧
      ParcelDecoder.decodeItems (items.map ParcelItem.kind) data = some (items, []) := by
  have start : ParcelAllocator.new.size = 0 := rfl
  have reserved := @foldl_reserve items .new (by rw [start]; omega)
  rw [start, Nat.zero_add] at reserved
  have full := @foldlM_encode items (.new ⟨(itemsBytes items).length⟩) (le_of_eq (Nat.zero_add _))
  have read := decodeItems_encoded items small []
  rw [List.append_nil] at read
  rw [reserved]
  exact ⟨_, itemsBytes items, full, if_pos rfl, rfl, read⟩

/-- A string with a NUL and a path with empty parts. -/
theorem parcel_roundTrip_nul : ∃ encoder data,
    [ParcelItem.string ['\x00', 'a'], .formulaPath ⟨[], []⟩].foldlM ParcelEncoder.encode
      (.new ([ParcelItem.string ['\x00', 'a'], .formulaPath ⟨[], []⟩].foldl ParcelAllocator.reserve .new)) = some encoder ∧
    encoder.getData = some data ∧
    data.length = ([ParcelItem.string ['\x00', 'a'], .formulaPath ⟨[], []⟩].foldl ParcelAllocator.reserve .new).size ∧
    ParcelDecoder.decodeItems ([ParcelItem.string ['\x00', 'a'], .formulaPath ⟨[], []⟩].map ParcelItem.kind) data =
      some ([ParcelItem.string ['\x00', 'a'], .formulaPath ⟨[], []⟩], []) :=
  parcel_roundTrip _ (by decide)

end MathWebSearch
