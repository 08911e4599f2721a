/-
**Queries** (`mws/types/Query.hpp`, `config/config.h.in`, `common/utils/getBoolType.cpp`).

A query as the reader of query documents builds it and the handlers read it. Integers have the widths of the source:
`size_t` is 64 bits, `int` is 32.

* `Query.new` — the constructor. It leaves `responseFormatter` and `cutoffMode` as the memory has them, which is
  a parameter (`QueryMemory`).
* `strtol`, `castInt`, `castSizeT`, `castUint8` — from the text of an attribute to the value of a field.
-/

import MathWebSearch.Types.CmmlToken

namespace MathWebSearch

/-- `Query::Options`. -/
structure QueryOptions where
  includeHits : Bool := true
  includeMwsIds : Bool := true
deriving DecidableEq

/-- The response formatters a query can point to. -/
inductive ResponseFormatter where
  | mwsXml
  | mwsJson
  | mwsIds
  | schemaXml
  | schemaJson
deriving DecidableEq

/-- What a freshly allocated `Query` holds in the fields that its constructor does not set. -/
structure QueryMemory where
  responseFormatter : ResponseFormatter
  cutoffMode : Char

def defaultQueryResultSize : Nat := 30
def defaultQueryResultTotal : Int := 100000
def defaultQueryTotalreq : Bool := true
def defaultSchemaDepth : Nat := 3

/-- `mws::types::Query`; `applyRestrictions` is compiled out by default, and with it `restricted` is not read. -/
structure Query where
  warnings : Int
  tokens : List CmmlToken
  attrResultMaxSize : Nat
  attrResultLimitMin : Nat
  attrResultTotalReq : Bool
  attrResultTotalReqNr : Int
  responseFormatter : ResponseFormatter
  options : QueryOptions
  maxDepth : Nat
  cutoffMode : Char

/-- The constructor. -/
def Query.new (memory : QueryMemory) : Query where
  warnings := 0
  tokens := []
  attrResultMaxSize := defaultQueryResultSize
  attrResultLimitMin := 0
  attrResultTotalReq := defaultQueryTotalreq
  attrResultTotalReqNr := defaultQueryResultTotal
  responseFormatter := memory.responseFormatter
  options := {}
  maxDepth := defaultSchemaDepth
  cutoffMode := memory.cutoffMode

/-! ### Numbers in attributes -/

/-- The value of the digits a text begins with. -/
def digitsValue (text : Str) : Nat :=
  (text.takeWhile Char.isDigit).foldl (fun value digit => 10 * value + (digit.toNat - '0'.toNat)) 0

/-- `strtol` with base 10: white space, a sign and digits; the value is clamped to that of a `long`. -/
def strtol (text : Str) : Int :=
  let value : Int :=
    match text.dropWhile isspace with
    | '-' :: digits => -(digitsValue digits : Int)
    | '+' :: digits => digitsValue digits
    | digits => digitsValue digits
  max (-2 ^ 63) (min value (2 ^ 63 - 1))

/-- The conversion to `int`. -/
def castInt (value : Int) : Int := value.bmod (2 ^ 32)

theorem castInt_add_castInt (left right : Int) : castInt (castInt left + right) = castInt (left + right) := by
  unfold castInt
  rw [Int.bmod_add_bmod]

theorem castInt_natCast_iff (value : Nat) : castInt value = value ↔ value < 2 ^ 31 := by
  unfold castInt
  rw [Int.bmod_def]
  split_ifs <;> omega

/-- The conversion of an `int` to `size_t`. -/
def castSizeT (value : Int) : Nat := (value % 2 ^ 64).toNat

/-- The conversion of an `int` to `uint8_t`. -/
def castUint8 (value : Int) : Nat := (value % 2 ^ 8).toNat

/-- `BoolType`. -/
inductive BoolType where
  | default
  | yes
  | no
deriving DecidableEq

/-- `getBoolType`. -/
def getBoolType (text : Str) : BoolType :=
  let lower := text.map Char.toLower
  if lower = ['y', 'e', 's'] ∨ lower = ['1'] then .yes
  else if lower = ['n', 'o'] ∨ lower = ['0'] then .no
  else .default

/-- The conversion of a `BoolType` to `bool`: both answers are true. -/
def BoolType.toBool (value : BoolType) : Bool := value ≠ .default

end MathWebSearch
