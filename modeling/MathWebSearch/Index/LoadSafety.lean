/-
**Loading an untrusted index file** (`memsector_load` in `mws/index/memsector.c`).

* `LoadsSafely` — what one would want of the loader: it reads only bytes of the file, and what it accepts is a complete
  header with its data and a root node inside the file.
* `Acceptable` — the files on which this is so, told by their bytes.
* `loadsSafely_iff` — the loader is safe exactly on these.

The loader never compares an offset with the size of the file, and the offset of the root is not looked at at all.
-/

import MathWebSearch.Index.Inode

namespace MathWebSearch

namespace Memsector

/-- The address behind the last byte of the node at an address; `none` when there is no node. -/
def nodeEnd (image : List UInt8) (node : Nat) : Option Nat := do
  let type ← nodeType image node
  if type = leafNodeType then return node + 8
  else if type = internalNode then return entryAddress node false (← inodeSize image node)
  else if type = longInternalNode then return entryAddress node true (← inodeSize image node)
  else none

/-- A node lies between two addresses. -/
def NodeInside (image : List UInt8) (start stop node : Nat) : Prop :=
  start ≤ node ∧ ∃ last, nodeEnd image node = some last ∧ last ≤ stop

/-- The header is complete, its data lies inside the file, and the root is a node of the data. -/
def ValidFile (image : List UInt8) : Prop :=
  ∃ header, MemsectorHeader.read image = some header ∧
    MemsectorHeader.size + header.indexSize ≤ image.length ∧
    NodeInside image MemsectorHeader.size (MemsectorHeader.size + header.indexSize) (getRoot header)

/-- **Safe loading**: no byte outside the file is read, and only valid files are accepted. -/
structure LoadsSafely (image : List UInt8) : Prop where
  inside : memsectorLoad image ≠ .outside
  valid : memsectorLoad image = .success → ValidFile image

/-- The checksum of the index data that the header announces. -/
def dataChecksum (image : List UInt8) (indexSize : Nat) : UInt32 :=
  crc32 0 ((image.drop MemsectorHeader.size).take indexSize)

/-- The files on which loading is safe: those without contents, those whose magic is there and another one, those whose
version is there and another one, those with another checksum whose data is there, and the valid ones. -/
inductive Acceptable (image : List UInt8) : Prop
  | empty (nothing : image = [])
  | otherMagic (magic : Nat) (there : Bytes.readWord image 0 4 = some magic) (other : magic ≠ memsectorMagic)
  | otherVersion (version : Nat) (magic : Bytes.readWord image 0 4 = some memsectorMagic)
      (there : Bytes.readWord image 4 4 = some version) (other : version ≠ memsectorVersion)
  | otherChecksum (indexSize checksum : Nat) (magic : Bytes.readWord image 0 4 = some memsectorMagic)
      (version : Bytes.readWord image 4 4 = some memsectorVersion)
      (size : Bytes.readWord image 8 8 = some indexSize) (there : Bytes.readWord image 16 4 = some checksum)
      (data : indexSize = 0 ∨ MemsectorHeader.size + indexSize ≤ image.length)
      (other : UInt32.ofNat checksum ≠ dataChecksum image indexSize)
  | valid (magic : Bytes.readWord image 0 4 = some memsectorMagic)
      (version : Bytes.readWord image 4 4 = some memsectorVersion) (valid : ValidFile image)

/-- A file with the right magic and version is judged by its checksum. -/
theorem memsectorLoad_of_version {image : List UInt8} (magic : Bytes.readWord image 0 4 = some memsectorMagic)
    (version : Bytes.readWord image 4 4 = some memsectorVersion) :
    memsectorLoad image =
      match Bytes.readWord image 16 4, (Bytes.readWord image 8 8).bind (getChecksum image) with
      | some checksum, some computed => if UInt32.ofNat checksum ≠ computed then .failure else .success
      | _, _ => .outside := by
  have nonempty : image ≠ [] := by
    rintro rfl
    cases magic
  rw [memsectorLoad, if_neg nonempty, magic]
  refine (if_neg (not_not_intro rfl)).trans ?_
  rw [version]
  exact if_neg (not_not_intro rfl)

theorem memsectorLoad_of_otherMagic {image : List UInt8} {magic : Nat}
    (there : Bytes.readWord image 0 4 = some magic) (other : magic ≠ memsectorMagic) :
    memsectorLoad image = .failure := by
  have nonempty : image ≠ [] := by
    rintro rfl
    cases there
  rw [memsectorLoad, if_neg nonempty, there]
  exact if_pos other

theorem memsectorLoad_of_otherVersion {image : List UInt8} {version : Nat}
    (magic : Bytes.readWord image 0 4 = some memsectorMagic) (there : Bytes.readWord image 4 4 = some version)
    (other : version ≠ memsectorVersion) : memsectorLoad image = .failure := by
  have nonempty : image ≠ [] := by
    rintro rfl
    cases magic
  rw [memsectorLoad, if_neg nonempty, magic]
  simp only [ne_eq, not_true_eq_false, if_false, there]
  exact if_pos other

/-- Where the data is there, its checksum is computed. -/
theorem getChecksum_eq {image : List UInt8} {indexSize : Nat}
    (data : indexSize = 0 ∨ MemsectorHeader.size + indexSize ≤ image.length) :
    getChecksum image indexSize = some (dataChecksum image indexSize) := if_pos data

theorem LoadsSafely.of_failure {image : List UInt8} (failure : memsectorLoad image = .failure) :
    LoadsSafely image := by
  refine ⟨?_, ?_⟩
  · rw [failure]
    exact nofun
  · intro success
    rw [failure] at success
    cases success

theorem Acceptable.loadsSafely {image : List UInt8} (acceptable : Acceptable image) : LoadsSafely image := by
  cases acceptable with
  | empty nothing => exact .of_failure (if_pos nothing)
  | otherMagic magic there other => exact .of_failure (memsectorLoad_of_otherMagic there other)
  | otherVersion version magic there other => exact .of_failure (memsectorLoad_of_otherVersion magic there other)
  | otherChecksum indexSize checksum magic version size there data other =>
    refine .of_failure ?_
    rw [memsectorLoad_of_version magic version, size, there, Option.bind_some, getChecksum_eq data]
    exact if_pos other
  | valid magic version valid =>
    refine ⟨?_, fun _ => valid⟩
    obtain ⟨header, complete, data, _⟩ := valid
    obtain ⟨-, -, size, ⟨checksum, there, -⟩, -⟩ := MemsectorHeader.read_eq_some complete
    rw [memsectorLoad_of_version magic version, size, there, Option.bind_some, getChecksum_eq (Or.inr data)]
    show (if _ then LoadOutcome.failure else .success) ≠ .outside
    split
    · exact nofun
    · exact nofun

/-- Every safe run stops at one of the checks, with all that it has read inside the file. -/
theorem LoadsSafely.acceptable {image : List UInt8} (safe : LoadsSafely image) : Acceptable image := by
  by_cases nothing : image = []
  · exact .empty nothing
  have inside := safe.inside
  cases magicThere : Bytes.readWord image 0 4 with
  | none =>
    rw [memsectorLoad, if_neg nothing, magicThere] at inside
    exact absurd rfl inside
  | some magic =>
    by_cases otherMagic : magic ≠ memsectorMagic
    · exact .otherMagic magic magicThere otherMagic
    obtain rfl := not_not.mp otherMagic
    cases versionThere : Bytes.readWord image 4 4 with
    | none =>
      rw [memsectorLoad, if_neg nothing, magicThere] at inside
      simp [versionThere] at inside
    | some version =>
      by_cases otherVersion : version ≠ memsectorVersion
      · exact .otherVersion version magicThere versionThere otherVersion
      obtain rfl := not_not.mp otherVersion
      have judged := memsectorLoad_of_version magicThere versionThere
      cases checksumThere : Bytes.readWord image 16 4 with
      | none =>
        rw [judged, checksumThere] at inside
        exact absurd rfl inside
      | some checksum =>
        cases sizeThere : Bytes.readWord image 8 8 with
        | none =>
          rw [judged, checksumThere, sizeThere] at inside
          exact absurd rfl inside
        | some indexSize =>
          by_cases data : indexSize = 0 ∨ MemsectorHeader.size + indexSize ≤ image.length
          · rw [checksumThere, sizeThere, Option.bind_some, getChecksum_eq data] at judged
            by_cases other : UInt32.ofNat checksum ≠ dataChecksum image indexSize
            · exact .otherChecksum indexSize checksum magicThere versionThere sizeThere checksumThere data other
            · exact .valid magicThere versionThere (safe.valid (judged.trans (if_neg other)))
          · rw [judged, checksumThere, sizeThere, Option.bind_some, getChecksum, if_neg data] at inside
            exact absurd rfl inside

/-- **The loader is safe exactly on the acceptable files.** -/
theorem loadsSafely_iff (image : List UInt8) : LoadsSafely image ↔ Acceptable image :=
  ⟨LoadsSafely.acceptable, Acceptable.loadsSafely⟩

/-- A file of the magic and the version only. -/
def truncatedFile : List UInt8 := Bytes.word 4 memsectorMagic ++ Bytes.word 4 memsectorVersion

/-- A header without data whose root lies far behind the end of the file. -/
def strayRootFile : List UInt8 := (⟨memsectorMagic, memsectorVersion, 0, 0, 2 ^ 40⟩ : MemsectorHeader).bytes

/-- The truncated file makes the loader read behind its end, and the file with the stray root is accepted. -/
theorem truncatedFile_strayRootFile :
    memsectorLoad truncatedFile = .outside ∧ ¬ LoadsSafely truncatedFile ∧
      memsectorLoad strayRootFile = .success ∧ ¬ LoadsSafely strayRootFile := by
  have outside : memsectorLoad truncatedFile = .outside := by decide +kernel
  have success : memsectorLoad strayRootFile = .success := by decide +kernel
  refine ⟨outside, fun safe => safe.inside outside, success, fun safe => ?_⟩
  obtain ⟨header, complete, _, _, last, found, _⟩ := safe.valid success
  obtain ⟨-, -, -, -, root⟩ := MemsectorHeader.read_eq_some complete
  have rootOff : header.rootOff = 2 ^ 40 :=
    (Option.some.inj (root.symm.trans (show Bytes.readWord strayRootFile 20 8 = some (2 ^ 40) by decide +kernel)))
  have missing : nodeEnd strayRootFile (getRoot header) = none := by
    rw [getRoot, rootOff]
    decide +kernel
  rw [missing] at found
  cases found

end Memsector

end MathWebSearch
