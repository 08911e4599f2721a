/-
**The memsector file** (`mws/index/memsector.{h,c}`, `crc32/crc32.c`, `common/utils/mmap.c`).

A memsector is a header of 28 bytes followed by the index data. The writer appends to the file and keeps the
offset and a running checksum; `save` puts the finished header in front. The loader maps the file and
compares magic, version and checksum. Input and output of the file system are assumed to succeed.

* `MemsectorWriter` — its fields `offset_eq` and `checksum_eq` say that offset and checksum are those of
  the data written so far; `crc32_append` is what makes the second one possible.
* `load_save` — a saved file loads, with the offset of the root it was saved with.

The field `held` is no variable of the source: it is the conjunction of all assertions evaluated so far.
-/

import MathWebSearch.Library.Bytes

namespace MathWebSearch

/-! ### The checksum -/

/-- `crc32_tab`. -/
def crc32Tab : Array UInt32 :=
  #[0x00000000, 0x77073096, 0xee0e612c, 0x990951ba, 0x076dc419, 0x706af48f, 0xe963a535, 0x9e6495a3,
    0x0edb8832, 0x79dcb8a4, 0xe0d5e91e, 0x97d2d988, 0x09b64c2b, 0x7eb17cbd, 0xe7b82d07, 0x90bf1d91,
    0x1db71064, 0x6ab020f2, 0xf3b97148, 0x84be41de, 0x1adad47d, 0x6ddde4eb, 0xf4d4b551, 0x83d385c7,
    0x136c9856, 0x646ba8c0, 0xfd62f97a, 0x8a65c9ec, 0x14015c4f, 0x63066cd9, 0xfa0f3d63, 0x8d080df5,
    0x3b6e20c8, 0x4c69105e, 0xd56041e4, 0xa2677172, 0x3c03e4d1, 0x4b04d447, 0xd20d85fd, 0xa50ab56b,
    0x35b5a8fa, 0x42b2986c, 0xdbbbc9d6, 0xacbcf940, 0x32d86ce3, 0x45df5c75, 0xdcd60dcf, 0xabd13d59,
    0x26d930ac, 0x51de003a, 0xc8d75180, 0xbfd06116, 0x21b4f4b5, 0x56b3c423, 0xcfba9599, 0xb8bda50f,
    0x2802b89e, 0x5f058808, 0xc60cd9b2, 0xb10be924, 0x2f6f7c87, 0x58684c11, 0xc1611dab, 0xb6662d3d,
    0x76dc4190, 0x01db7106, 0x98d220bc, 0xefd5102a, 0x71b18589, 0x06b6b51f, 0x9fbfe4a5, 0xe8b8d433,
    0x7807c9a2, 0x0f00f934, 0x9609a88e, 0xe10e9818, 0x7f6a0dbb, 0x086d3d2d, 0x91646c97, 0xe6635c01,
    0x6b6b51f4, 0x1c6c6162, 0x856530d8, 0xf262004e, 0x6c0695ed, 0x1b01a57b, 0x8208f4c1, 0xf50fc457,
    0x65b0d9c6, 0x12b7e950, 0x8bbeb8ea, 0xfcb9887c, 0x62dd1ddf, 0x15da2d49, 0x8cd37cf3, 0xfbd44c65,
    0x4db26158, 0x3ab551ce, 0xa3bc0074, 0xd4bb30e2, 0x4adfa541, 0x3dd895d7, 0xa4d1c46d, 0xd3d6f4fb,
    0x4369e96a, 0x346ed9fc, 0xad678846, 0xda60b8d0, 0x44042d73, 0x33031de5, 0xaa0a4c5f, 0xdd0d7cc9,
    0x5005713c, 0x270241aa, 0xbe0b1010, 0xc90c2086, 0x5768b525, 0x206f85b3, 0xb966d409, 0xce61e49f,
    0x5edef90e, 0x29d9c998, 0xb0d09822, 0xc7d7a8b4, 0x59b33d17, 0x2eb40d81, 0xb7bd5c3b, 0xc0ba6cad,
    0xedb88320, 0x9abfb3b6, 0x03b6e20c, 0x74b1d29a, 0xead54739, 0x9dd277af, 0x04db2615, 0x73dc1683,
    0xe3630b12, 0x94643b84, 0x0d6d6a3e, 0x7a6a5aa8, 0xe40ecf0b, 0x9309ff9d, 0x0a00ae27, 0x7d079eb1,
    0xf00f9344, 0x8708a3d2, 0x1e01f268, 0x6906c2fe, 0xf762575d, 0x806567cb, 0x196c3671, 0x6e6b06e7,
    0xfed41b76, 0x89d32be0, 0x10da7a5a, 0x67dd4acc, 0xf9b9df6f, 0x8ebeeff9, 0x17b7be43, 0x60b08ed5,
    0xd6d6a3e8, 0xa1d1937e, 0x38d8c2c4, 0x4fdff252, 0xd1bb67f1, 0xa6bc5767, 0x3fb506dd, 0x48b2364b,
    0xd80d2bda, 0xaf0a1b4c, 0x36034af6, 0x41047a60, 0xdf60efc3, 0xa867df55, 0x316e8eef, 0x4669be79,
    0xcb61b38c, 0xbc66831a, 0x256fd2a0, 0x5268e236, 0xcc0c7795, 0xbb0b4703, 0x220216b9, 0x5505262f,
    0xc5ba3bbe, 0xb2bd0b28, 0x2bb45a92, 0x5cb36a04, 0xc2d7ffa7, 0xb5d0cf31, 0x2cd99e8b, 0x5bdeae1d,
    0x9b64c2b0, 0xec63f226, 0x756aa39c, 0x026d930a, 0x9c0906a9, 0xeb0e363f, 0x72076785, 0x05005713,
    0x95bf4a82, 0xe2b87a14, 0x7bb12bae, 0x0cb61b38, 0x92d28e9b, 0xe5d5be0d, 0x7cdcefb7, 0x0bdbdf21,
    0x86d3d2d4, 0xf1d4e242, 0x68ddb3f8, 0x1fda836e, 0x81be16cd, 0xf6b9265b, 0x6fb077e1, 0x18b74777,
    0x88085ae6, 0xff0f6a70, 0x66063bca, 0x11010b5c, 0x8f659eff, 0xf862ae69, 0x616bffd3, 0x166ccf45,
    0xa00ae278, 0xd70dd2ee, 0x4e048354, 0x3903b3c2, 0xa7672661, 0xd06016f7, 0x4969474d, 0x3e6e77db,
    0xaed16a4a, 0xd9d65adc, 0x40df0b66, 0x37d83bf0, 0xa9bcae53, 0xdebb9ec5, 0x47b2cf7f, 0x30b5ffe9,
    0xbdbdf21c, 0xcabac28a, 0x53b39330, 0x24b4a3a6, 0xbad03605, 0xcdd70693, 0x54de5729, 0x23d967bf,
    0xb3667a2e, 0xc4614ab8, 0x5d681b02, 0x2a6f2b94, 0xb40bbe37, 0xc30c8ea1, 0x5a05df1b, 0x2d02ef8d]

/-- The body of the loop of `crc32`. -/
def crc32Step (crc : UInt32) (byte : UInt8) : UInt32 :=
  crc32Tab.getD ((crc ^^^ byte.toUInt32) &&& 0xff).toNat 0 ^^^ (crc >>> 8)

/-- `crc32`. -/
def crc32 (crc : UInt32) (buf : List UInt8) : UInt32 :=
  buf.foldl crc32Step (crc ^^^ 0xffffffff) ^^^ 0xffffffff

@[simp] theorem crc32_nil (crc : UInt32) : crc32 crc [] = crc := by
  rw [crc32, List.foldl_nil, UInt32.xor_assoc, UInt32.xor_self, UInt32.xor_zero]

/-- **The checksum streams**: going on from the checksum of a front gives the checksum of the whole. -/
theorem crc32_append (crc : UInt32) (front back : List UInt8) :
    crc32 crc (front ++ back) = crc32 (crc32 crc front) back := by
  have restart : crc32 crc front ^^^ 0xffffffff = front.foldl crc32Step (crc ^^^ 0xffffffff) := by
    rw [crc32, UInt32.xor_assoc, UInt32.xor_self, UInt32.xor_zero]
  rw [crc32, crc32, restart, List.foldl_append]

/-! ### The header -/

/-- `MEMSECTOR_ALLOC_UNIT`. -/
def memsectorAllocUnit : Nat := 4

/-- `MEMSECTOR_LONG_OFF_START`. -/
def memsectorLongOffStart : Nat := 2 ^ 32

/-- `memsector_header_t`. -/
@[ext] structure MemsectorHeader where
  magic : Nat
  version : Nat
  indexSize : Nat
  checksum : UInt32
  rootOff : Nat
deriving DecidableEq

/-- `MEMSECTOR_MAGIC`. -/
def memsectorMagic : Nat := 0x88CAFE88

/-- `MEMSECTOR_VERSION`. -/
def memsectorVersion : Nat := 1

namespace MemsectorHeader

/-- `sizeof(memsector_header_t)`; the struct is packed. -/
def size : Nat := 28

/-- The bytes of the packed struct. -/
def bytes (header : MemsectorHeader) : List UInt8 :=
  Bytes.word 4 header.magic ++ (Bytes.word 4 header.version ++ (Bytes.word 8 header.indexSize ++
    (Bytes.word 4 header.checksum.toNat ++ Bytes.word 8 header.rootOff)))

/-- The struct at the start of an image. -/
def read (image : List UInt8) : Option MemsectorHeader := do
  let magic ← Bytes.readWord image 0 4
  let version ← Bytes.readWord image 4 4
  let indexSize ← Bytes.readWord image 8 8
  let checksum ← Bytes.readWord image 16 4
  let rootOff ← Bytes.readWord image 20 8
  return ⟨magic, version, indexSize, UInt32.ofNat checksum, rootOff⟩

@[simp] theorem length_bytes (header : MemsectorHeader) : header.bytes.length = size := by
  simp [bytes, size]

/-- A header whose fields fit is read back. -/
theorem read_bytes (header : MemsectorHeader) (data : List UInt8) (magic : header.magic < 2 ^ 32)
    (version : header.version < 2 ^ 32) (indexSize : header.indexSize < 2 ^ 64)
    (rootOff : header.rootOff < 2 ^ 64) : read (header.bytes ++ data) = some header := by
  have whole : Bytes.Holds (header.bytes ++ data) 0 header.bytes := Bytes.holds_append [] header.bytes data
  obtain ⟨atMagic, rest⟩ := whole.split
  obtain ⟨atVersion, rest⟩ := rest.split
  obtain ⟨atSize, rest⟩ := rest.split
  obtain ⟨atChecksum, atRoot⟩ := rest.split
  simp only [Bytes.length_word, Nat.zero_add, Nat.reduceAdd] at atVersion atSize atChecksum atRoot
  rw [read, Bytes.readWord_of_holds_of_lt atMagic magic, Bytes.readWord_of_holds_of_lt atVersion version,
    Bytes.readWord_of_holds_of_lt atSize indexSize,
    Bytes.readWord_of_holds_of_lt atChecksum header.checksum.toNat_lt,
    Bytes.readWord_of_holds_of_lt atRoot rootOff]
  simp

end MemsectorHeader

/-! ### Writing -/

/-- `memsector_writer_t`: the file is the header's place followed by `data`; of the header only the
checksum changes before `save`. -/
@[ext] structure MemsectorWriter where
  data : List UInt8
  checksum : UInt32
  offset : Nat
  entriesPromised : Nat
  entriesDelivered : Nat
  hasLongOffsets : Bool
  held : Bool
  offset_eq : offset = (MemsectorHeader.size + data.length) % 2 ^ 64
  checksum_eq : checksum = crc32 0 data

namespace Memsector

/-- `memsector_create`. -/
@[simps]
def create : MemsectorWriter where
  data := []
  checksum := 0
  offset := MemsectorHeader.size
  entriesPromised := 0
  entriesDelivered := 0
  hasLongOffsets := false
  held := true
  offset_eq := rfl
  checksum_eq := (crc32_nil 0).symm

/-- An `assert`. -/
@[simps]
def check (mswr : MemsectorWriter) (condition : Bool) : MemsectorWriter :=
  { mswr with held := mswr.held && condition }

/-- `memsector_write`. -/
@[simps]
def write (msw : MemsectorWriter) (data : List UInt8) : MemsectorWriter :=
  { msw with
    data := msw.data ++ data
    offset := (msw.offset + data.length) % 2 ^ 64
    checksum := crc32 msw.checksum data
    offset_eq := by rw [msw.offset_eq, Nat.mod_add_mod, List.length_append, Nat.add_assoc]
    checksum_eq := by rw [msw.checksum_eq, crc32_append] }

/-- `memsector_get_current_offset`: a `uint32_t`, with an assertion about the offset. -/
def getCurrentOffset (mswr : MemsectorWriter) : MemsectorWriter × Nat :=
  (check mswr (mswr.offset % memsectorAllocUnit = 0), mswr.offset / memsectorAllocUnit % 2 ^ 32)

/-- The header `memsector_save` writes. -/
def savedHeader (msw : MemsectorWriter) (indexOff : Nat) : MemsectorHeader where
  magic := memsectorMagic
  version := memsectorVersion
  indexSize := (msw.offset + 2 ^ 64 - MemsectorHeader.size) % 2 ^ 64
  checksum := msw.checksum
  rootOff := indexOff

/-- `memsector_save`: the file. -/
def save (msw : MemsectorWriter) (indexOff : Nat) : List UInt8 := (savedHeader msw indexOff).bytes ++ msw.data

/-- `memsector_get_checksum`: the checksum of the index data; `none` when its loop reads past the end of the image. -/
def getChecksum (image : List UInt8) (indexSize : Nat) : Option UInt32 :=
  if indexSize = 0 ∨ MemsectorHeader.size + indexSize ≤ image.length then
    some (crc32 0 ((image.drop MemsectorHeader.size).take indexSize))
  else none

/-- How `memsector_load` ends: it returns 0 with the handle on the image, it returns -1, or it reads a byte behind the
end of the file. -/
inductive LoadOutcome where
  | success
  | failure
  | outside
deriving DecidableEq

/-- `memsector_load` on the contents of a file, check by check. A file without contents cannot be mapped. -/
def memsectorLoad (image : List UInt8) : LoadOutcome :=
  if image = [] then .failure
  else
    match Bytes.readWord image 0 4 with
    | none => .outside
    | some magic =>
      if magic ≠ memsectorMagic then .failure
      else
        match Bytes.readWord image 4 4 with
        | none => .outside
        | some version =>
          if version ≠ memsectorVersion then .failure
          else
            match Bytes.readWord image 16 4, (Bytes.readWord image 8 8).bind (getChecksum image) with
            | some checksum, some computed => if UInt32.ofNat checksum ≠ computed then .failure else .success
            | _, _ => .outside

/-- The header behind the handle of a loaded memsector. -/
def load (image : List UInt8) : Option MemsectorHeader :=
  if memsectorLoad image = .success then MemsectorHeader.read image else none

/-- `memsector_get_root`: the address of the root in the image; the arithmetic is that of 64 bits. -/
def getRoot (header : MemsectorHeader) : Nat := memsectorAllocUnit * header.rootOff % 2 ^ 64

theorem getRoot_savedHeader (msw : MemsectorWriter) {indexOff : Nat} (small : indexOff < 2 ^ 62) :
    getRoot (savedHeader msw indexOff) = memsectorAllocUnit * indexOff := by
  show memsectorAllocUnit * indexOff % 2 ^ 64 = memsectorAllocUnit * indexOff
  unfold memsectorAllocUnit
  omega

theorem length_save (msw : MemsectorWriter) (indexOff : Nat) :
    (save msw indexOff).length = MemsectorHeader.size + msw.data.length := by
  rw [save, List.length_append, MemsectorHeader.length_bytes]

theorem indexSize_savedHeader (msw : MemsectorWriter) (indexOff : Nat)
    (small : (save msw indexOff).length < 2 ^ 64) : (savedHeader msw indexOff).indexSize = msw.data.length := by
  rw [length_save, MemsectorHeader.size] at small
  have offset := msw.offset_eq
  rw [MemsectorHeader.size, Nat.mod_eq_of_lt small] at offset
  simp only [savedHeader, MemsectorHeader.size, offset]
  omega

/-- The parts of a header that was read. -/
theorem MemsectorHeader.read_eq_some {image : List UInt8} {header : MemsectorHeader}
    (complete : MemsectorHeader.read image = some header) :
    Bytes.readWord image 0 4 = some header.magic ∧ Bytes.readWord image 4 4 = some header.version ∧
      Bytes.readWord image 8 8 = some header.indexSize ∧
      (∃ checksum, Bytes.readWord image 16 4 = some checksum ∧ header.checksum = UInt32.ofNat checksum) ∧
      Bytes.readWord image 20 8 = some header.rootOff := by
  unfold MemsectorHeader.read at complete
  simp only [Option.bind_eq_bind, Option.bind_eq_some_iff, pure, Option.some.injEq] at complete
  obtain ⟨magic, atMagic, version, atVersion, indexSize, atSize, checksum, atChecksum, rootOff, atRoot, rfl⟩ :=
    complete
  exact ⟨atMagic, atVersion, atSize, ⟨checksum, atChecksum, rfl⟩, atRoot⟩

/-- **When a complete file loads.** -/
theorem memsectorLoad_of_read {image : List UInt8} {header : MemsectorHeader}
    (complete : MemsectorHeader.read image = some header) (magic : header.magic = memsectorMagic)
    (version : header.version = memsectorVersion) (checksum : getChecksum image header.indexSize = some header.checksum) :
    memsectorLoad image = .success := by
  obtain ⟨atMagic, atVersion, atSize, ⟨value, atChecksum, same⟩, -⟩ := MemsectorHeader.read_eq_some complete
  have nonempty : image ≠ [] := by
    rintro rfl
    cases atMagic
  rw [memsectorLoad, if_neg nonempty, atMagic]
  simp only [magic, ne_eq, not_true_eq_false, if_false, atVersion, version, atChecksum, atSize, Option.bind_some,
    checksum, same]

/-- **A saved file loads.** -/
theorem load_save (msw : MemsectorWriter) {indexOff : Nat} (small : (save msw indexOff).length < 2 ^ 64)
    (root : indexOff < 2 ^ 64) : load (save msw indexOff) = some (savedHeader msw indexOff) := by
  have size := indexSize_savedHeader msw indexOff small
  have bound : msw.data.length < 2 ^ 64 := by
    rw [length_save] at small
    omega
  have header : MemsectorHeader.read (save msw indexOff) = some (savedHeader msw indexOff) :=
    MemsectorHeader.read_bytes _ _ (show memsectorMagic < 2 ^ 32 by decide)
      (show memsectorVersion < 2 ^ 32 by decide) (by rw [size]; exact bound) root
  have checksum : getChecksum (save msw indexOff) (savedHeader msw indexOff).indexSize = some msw.checksum := by
    rw [getChecksum, size, length_save, if_pos (Or.inr le_rfl), save, msw.checksum_eq,
      ← MemsectorHeader.length_bytes (savedHeader msw indexOff), List.drop_left, List.take_length]
  rw [load, if_pos (memsectorLoad_of_read header rfl rfl checksum), header]

end Memsector

end MathWebSearch
