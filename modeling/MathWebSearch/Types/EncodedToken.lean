/-
**Encoded tokens** (`mws/index/encoded_token.h`).

A ContentMathML token is packed into 32 bits: eight of arity and twenty-four of meaning id. The id
space is split into harvest variables, query variables (named and anonymous each), ranges and
constants; the predicates below are the ones the source decides the class of a token with.

`EncodedToken.compare` is the byte order `memcmp` gives the packed struct on a little-endian
machine: the arity byte comes first, then the id from its least significant byte up.
-/

import MathWebSearch.Library.Bytes
import MathWebSearch.Library.PrefixCode

namespace MathWebSearch

/-- Eight bits hold the arity; a `cerror` might have more children. -/
def encTokMaxArity : Nat := 255

def hvarIdMin : Nat := 1
def hvarIdMax : Nat := 32
def anonHvarIdMin : Nat := 33
def anonHvarIdMax : Nat := 64
def qvarIdMin : Nat := 65
def qvarIdMax : Nat := 96
def anonQvarIdMin : Nat := 97
def anonQvarIdMax : Nat := 128
def varIdMax : Nat := 128
def rangeIdMin : Nat := 129
def rangeIdMax : Nat := 160
def constantIdMin : Nat := 161

/-- `encoded_token_s`: the two bit-fields, each within its width. -/
@[ext] structure EncodedToken where
  arity : Nat
  id : Nat
  arity_lt : arity < 2 ^ 8
  id_lt : id < 2 ^ 24
deriving DecidableEq, Repr

/-- `encoded_token`: assigning to the bit-fields drops the bits that do not fit. -/
def encodedToken (id arity : Nat) : EncodedToken where
  arity := arity % 2 ^ 8
  id := id % 2 ^ 24
  arity_lt := Nat.mod_lt _ (by decide)
  id_lt := Nat.mod_lt _ (by decide)

@[simp] theorem encodedToken_arity (id arity : Nat) :
    (encodedToken id arity).arity = arity % 2 ^ 8 := rfl

@[simp] theorem encodedToken_id (id arity : Nat) : (encodedToken id arity).id = id % 2 ^ 24 := rfl

namespace EncodedToken

instance : Inhabited EncodedToken := ⟨encodedToken 0 0⟩

/-- Packing the fields of a token gives the token back. -/
@[simp] theorem encodedToken_self (token : EncodedToken) :
    encodedToken token.id token.arity = token := by
  ext
  · exact Nat.mod_eq_of_lt token.arity_lt
  · exact Nat.mod_eq_of_lt token.id_lt

/-- `encoded_token_is_var`. -/
def isVar (token : EncodedToken) : Bool := token.id ≤ varIdMax

/-- `encoded_token_is_range`. -/
def isRange (token : EncodedToken) : Bool := rangeIdMin ≤ token.id && token.id ≤ rangeIdMax

/-- `encoded_token_is_anon_var`; the last id of each anonymous block is left out, as in the source. -/
def isAnonVar (token : EncodedToken) : Bool :=
  (anonHvarIdMin ≤ token.id && token.id < anonHvarIdMax) ||
    (anonQvarIdMin ≤ token.id && token.id < anonQvarIdMax)

/-- A token that stands for itself: neither variable nor range. -/
def IsConstant (token : EncodedToken) : Prop := constantIdMin ≤ token.id

instance (token : EncodedToken) : Decidable token.IsConstant :=
  inferInstanceAs (Decidable (_ ≤ _))

theorem IsConstant.isVar_eq {token : EncodedToken} (constant : token.IsConstant) :
    token.isVar = false := by
  unfold IsConstant constantIdMin at constant
  exact decide_eq_false (by unfold varIdMax; omega)

theorem IsConstant.isRange_eq {token : EncodedToken} (constant : token.IsConstant) :
    token.isRange = false := by
  unfold IsConstant constantIdMin at constant
  rw [isRange, Bool.and_eq_false_iff]
  exact Or.inr (decide_eq_false (by unfold rangeIdMax; omega))

/-! ### The packed struct -/

/-- The 32-bit word of the packed struct: the arity in its low byte. -/
def packed (token : EncodedToken) : Nat := token.arity + 2 ^ 8 * token.id

/-- The four bytes of the packed struct. -/
def bytes (token : EncodedToken) : List UInt8 := Bytes.word 4 token.packed

/-- The token a 32-bit word packs. -/
def unpack (word : Nat) : EncodedToken := encodedToken (word / 2 ^ 8) word

theorem packed_lt (token : EncodedToken) : token.packed < 256 ^ 4 := by
  have := token.arity_lt
  have := token.id_lt
  unfold packed
  omega

@[simp] theorem unpack_packed (token : EncodedToken) : unpack token.packed = token := by
  have := token.arity_lt
  have := token.id_lt
  ext
  · simp only [unpack, packed, encodedToken_arity]
    omega
  · simp only [unpack, packed, encodedToken_id]
    omega

theorem packed_injective {first second : EncodedToken} (same : first.packed = second.packed) :
    first = second := by
  rw [← unpack_packed first, same, unpack_packed]

theorem bytes_injective {first second : EncodedToken} (same : first.bytes = second.bytes) :
    first = second :=
  packed_injective (Bytes.word_injective first.packed_lt second.packed_lt same)

/-- `Comparator::compare` on tokens: `memcmp` of the packed structs. -/
def compare (first second : EncodedToken) : Ordering := Bytes.memcmp first.bytes second.bytes

instance : Std.TransCmp compare where
  eq_swap := fun {first second} => @Std.OrientedCmp.eq_swap _ Bytes.memcmp _ first.bytes second.bytes
  isLE_trans := fun {first second third} =>
    @Std.TransCmp.isLE_trans _ Bytes.memcmp _ first.bytes second.bytes third.bytes

instance : Std.LawfulEqCmp compare where
  compare_self := fun {token} => @Std.ReflCmp.compare_self _ Bytes.memcmp _ token.bytes
  eq_of_compare := fun {_ _} same => bytes_injective (Std.LawfulEqCmp.eq_of_compare same)

end EncodedToken

/-- An encoded formula: the tokens of a tree in pre-order. -/
abbrev EncodedFormula := List EncodedToken

namespace EncodedFormula

/-- **A complete prefix code**: `1 + Σ (arity - 1)` is positive on every proper part of the formula
and zero on the whole. -/
def IsPrefixCode (formula : EncodedFormula) : Prop :=
  PrefixCode.IsComplete EncodedToken.arity formula

/-- No token of the formula is a variable or a range. -/
def VariableFree (formula : EncodedFormula) : Prop := ∀ token ∈ formula, token.IsConstant

theorem isPrefixCode_iff {formula : EncodedFormula} :
    formula.IsPrefixCode ↔ PrefixCode.Closes EncodedToken.arity 1 formula :=
  PrefixCode.isComplete_iff_closes formula

instance (formula : EncodedFormula) : Decidable formula.IsPrefixCode :=
  decidable_of_iff' _ isPrefixCode_iff

instance (formula : EncodedFormula) : Decidable formula.VariableFree :=
  inferInstanceAs (Decidable (∀ token ∈ formula, token.IsConstant))

end EncodedFormula

end MathWebSearch
