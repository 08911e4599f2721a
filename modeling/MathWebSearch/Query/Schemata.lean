/-
**Schemata** (`SchemaEngine::getSchemata`).

Every formula of a request is reduced at its cutoff, the tokens that are kept are written as a text, and the formulae
with one text make up a group. The largest groups are decoded into schemata.

* `roundDouble` — the products of the relative cutoff are rounded to 53 bits, as those of a `double` are.
* `unhash_hash` — the text of a group gives the tokens back.
* `groupLoop` — the groups come in the order in which they were made; a hash map and a sort that is not stable hand
  them over in another order, which is a parameter (`Arrangement`).
-/

import MathWebSearch.Query.SchemaEngine
import MathWebSearch.Types.Decimal

namespace MathWebSearch

open CmmlToken ExpressionEncoder

/-- `SchemaEngine::CutoffHeuristic`. -/
inductive CutoffHeuristic where
  | absolute
  | relative
deriving DecidableEq

/-- `SchemaEngine`, with the decoder that it makes of a dictionary. -/
structure SchemaEngine where
  decoder : ExpressionDecoder
  cutoffHeuristic : CutoffHeuristic

namespace SchemaEngine

/-! ### Meanings -/

/-- `decodeMeaning`. -/
def decodeMeaning (meaning : Str) : Str × Str := (splitMeaning meaning).getD (meaning, [])

/-- `decoder.getMeaning`. -/
def getMeaning (self : SchemaEngine) (tok : EncodedToken) : Except Stop Str :=
  match self.decoder.getMeaning tok.id with
  | some meaning => .ok meaning
  | none => .error .invalidMeaning

/-- Whether the tag of a meaning begins with `apply`. -/
def meansApply (meaning : Str) : Bool := applyTag.isPrefixOf (decodeMeaning meaning).1

/-- `isApply`. -/
def isApply (self : SchemaEngine) (tok : EncodedToken) : Except Stop Bool := do
  let meaning ← self.getMeaning tok
  return meansApply meaning

/-- A new node with the tag and the text of a meaning. -/
def contentOf (meaning : Str) : Str × TextContent :=
  (tagOf (decodeMeaning meaning).1, TextContent.empty.append (decodeMeaning meaning).2)

/-- The node that `decodeFormula` makes of a token. -/
def print (self : SchemaEngine) (tok : EncodedToken) : Except Stop (Str × TextContent) := do
  let meaning ← self.getMeaning tok
  return contentOf meaning

/-- `reduceFormula` of encoded tokens. -/
def reduceEncoded (self : SchemaEngine) (expr : EncodedFormula) (maxDepth : Nat) : Except Stop EncodedFormula :=
  reduceFormula EncodedToken.arity self.isApply expr maxDepth

/-- `decodeFormula` of encoded tokens. -/
def decodeEncoded (self : SchemaEngine) (expr : EncodedFormula) (maxDepth : Nat) :
    Except Stop (SchemaTree (Str × TextContent)) :=
  decodeFormula EncodedToken.arity self.isApply self.print expr maxDepth

/-- `DEFAULT_QVAR_PREFIX` with a number. -/
def qvarText (number : Nat) : TextContent := TextContent.empty.append ('x' :: toStr number)

mutual

/-- The `CmmlToken` of a schema. -/
def SchemaTree.toCmml : SchemaTree (Str × TextContent) → CmmlToken
  | .token content children => .mk content.1 [] content.2 (SchemaTree.toCmmlAll children)
  | .qvar number => .mk qvarTag [] (qvarText number) []

/-- The child nodes. -/
def SchemaTree.toCmmlAll : List (SchemaTree (Str × TextContent)) → List CmmlToken
  | [] => []
  | tree :: rest => tree.toCmml :: SchemaTree.toCmmlAll rest

end

/-! ### The cutoff -/

/-- Rounding to 53 significant bits, to the even neighbour when both are as near. -/
def roundDouble (units : Nat) : Nat :=
  let exponent := Nat.log2 units - 52
  let low := units / 2 ^ exponent
  let rest := units % 2 ^ exponent
  if 2 ^ exponent < 2 * rest ∨ (2 * rest = 2 ^ exponent ∧ low % 2 = 1) then (low + 1) * 2 ^ exponent
  else low * 2 ^ exponent

/-- The `double` nearest to 0.01, in units of `2 ^ -59`. -/
def hundredth : Nat := 5764607523034235

/-- The `cutoff` of a formula. A percentage is rounded down; one above 255 has no defined value in the source, and here
the low byte of it. -/
def cutoff (self : SchemaEngine) (depth : Nat) (exprTokens : CmmlToken) : Nat :=
  match self.cutoffHeuristic with
  | .absolute => depth
  | .relative => roundDouble (roundDouble (hundredth * depth) * exprTokens.getExprDepth) / 2 ^ 59 % 2 ^ 8

/-! ### The text of a group -/

/-- The tokens of `hashExpr`. -/
def hashTokens (expr : EncodedFormula) : Str :=
  expr.flatMap fun tok => ' ' :: toStr tok.id ++ ' ' :: toStr tok.arity

/-- `hashExpr`. -/
def hashExpr (expr : EncodedFormula) : Str := toStr expr.length ++ hashTokens expr

/-- The loop of `unhashExpr`; `none` where the stream fails. -/
def unhashTokens : Nat → Str → Option EncodedFormula
  | 0, _ => some []
  | exprSize + 1, serial => do
    let (id, serial) ← readUint32 serial
    let (arity, serial) ← readUint32 serial
    let expr ← unhashTokens exprSize serial
    return encodedToken id arity :: expr

/-- `unhashExpr`. -/
def unhashExpr (exprHash : Str) : Option EncodedFormula := do
  let (exprSize, serial) ← readNumber exprHash
  unhashTokens exprSize serial

theorem hashTokens_ends (expr : EncodedFormula) : ∀ c ∈ (hashTokens expr).head?, c.isDigit = false := by
  intro c first
  cases expr with
  | nil => cases first
  | cons tok rest =>
    obtain rfl : ' ' = c := Option.some.inj first
    rfl

theorem unhashTokens_hashTokens (expr : EncodedFormula) : unhashTokens expr.length (hashTokens expr) = some expr := by
  induction expr with
  | nil => rfl
  | cons tok rest ih =>
    have id : tok.id < 2 ^ 32 := lt_trans tok.id_lt (by decide)
    have arity : tok.arity < 2 ^ 32 := lt_trans tok.arity_lt (by decide)
    have text : hashTokens (tok :: rest) = ' ' :: toStr tok.id ++ (' ' :: toStr tok.arity ++ hashTokens rest) := by
      rw [hashTokens, List.flatMap_cons, ← hashTokens, List.append_assoc]
    have blank : ∀ c ∈ (' ' :: toStr tok.arity ++ hashTokens rest).head?, c.isDigit = false := by
      intro c first
      obtain rfl : ' ' = c := Option.some.inj first
      rfl
    rw [List.length_cons, unhashTokens, text, readUint32_blank id blank]
    simp only [bind, Option.bind]
    rw [readUint32_blank arity (hashTokens_ends rest)]
    simp only [ih, EncodedToken.encodedToken_self]
    rfl

/-- **The text of a group gives its tokens back.** -/
theorem unhash_hash (expr : EncodedFormula) : unhashExpr (hashExpr expr) = some expr := by
  rw [unhashExpr, hashExpr, readNumber_toStr _ (hashTokens_ends expr)]
  exact unhashTokens_hashTokens expr

theorem hashExpr_inj {expr expr' : EncodedFormula} (same : hashExpr expr = hashExpr expr') : expr = expr' := by
  have read := unhash_hash expr
  rw [same, unhash_hash expr'] at read
  exact (Option.some.inj read).symm

/-- **Texts and tokens correspond**: every text is read back, and so the texts are equal exactly if the tokens are. -/
theorem hashExpr_roundTrip : (∀ expr, unhashExpr (hashExpr expr) = some expr) ∧
    ∀ expr expr', hashExpr expr = hashExpr expr' ↔ expr = expr' := by
  refine ⟨unhash_hash, fun expr expr' => ⟨hashExpr_inj, ?_⟩⟩
  rintro rfl
  rfl

/-! ### Groups -/

/-- `schemaGroup`, in the order in which the groups were made, and `cutoffs`, which has zero where nothing was set. -/
structure Groups where
  schemaGroup : List (Str × List Nat)
  cutoffs : Str → Nat

/-- The formula is put to the group with its hash, or starts one. -/
def addFormula (hash : Str) (i : Nat) : List (Str × List Nat) → List (Str × List Nat)
  | [] => [(hash, [i])]
  | group :: rest =>
    if group.1 = hash then (group.1, group.2 ++ [i]) :: rest else group :: addFormula hash i rest

/-- The loop of `getSchemata`, from formula `i` on; the numbers are stored as `uint32_t`. -/
def groupLoop (self : SchemaEngine) (depth : Nat) : List (EncodedFormula × CmmlToken) → Nat → Groups → Except Stop Groups
  | [], _, groups => .ok groups
  | (expr, exprTokens) :: rest, i, groups => do
    let cutoff := self.cutoff depth exprTokens
    let reduced ← self.reduceEncoded expr cutoff
    let hash := hashExpr reduced
    self.groupLoop depth rest (i + 1)
      ⟨addFormula hash (i % 2 ^ 32) groups.schemaGroup, Function.update groups.cutoffs hash cutoff⟩

/-- The order in which the groups leave the hash map and `std::sort`: the larger ones come first. -/
structure Arrangement where
  arrange : List (Str × List Nat) → List (Str × List Nat)
  perm : ∀ groups, (arrange groups).Perm groups
  sorted : ∀ groups, (arrange groups).Pairwise fun group group' => group'.2.length ≤ group.2.length

/-- The order that keeps groups of one size as they come. -/
def largestFirst : Arrangement where
  arrange groups := groups.insertionSort fun group group' => group'.2.length ≤ group.2.length
  perm groups := List.perm_insertionSort _ groups
  sorted groups := by
    have total : Std.Total fun group group' : Str × List Nat => group'.2.length ≤ group.2.length :=
      ⟨fun _ _ => Nat.le_total _ _⟩
    have trans : IsTrans (Str × List Nat) fun group group' => group'.2.length ≤ group.2.length :=
      ⟨fun _ _ _ less more => Nat.le_trans more less⟩
    exact List.pairwise_insertionSort _ groups

/-! ### `getSchemata` -/

/-- `ExprSchema`. -/
structure ExprSchema where
  root : CmmlToken
  coverage : Nat
  formulae : List Nat
  subst : List Str

/-- `SchemaAnswset`. -/
structure SchemaAnswset where
  schemata : List ExprSchema
  total : Int

/-- The schema of a group. -/
def exprSchema (self : SchemaEngine) (cutoffs : Str → Nat) (group : Str × List Nat) : Except Stop ExprSchema :=
  match unhashExpr group.1 with
  | none => .error .failedStream
  | some expr => do
    let root ← self.decodeEncoded expr (cutoffs group.1)
    return ⟨root.toCmml, group.2.length, group.2, []⟩

/-- `topExpr.resize`; no limit when `max_total` is zero. -/
def topExprs (maxTotal : Nat) (groups : List (Str × List Nat)) : List (Str × List Nat) :=
  if maxTotal < groups.length ∧ maxTotal ≠ 0 then groups.take maxTotal else groups

/-- `getSchemata`. -/
def getSchemata (self : SchemaEngine) (order : Arrangement) (formulae : List (EncodedFormula × CmmlToken))
    (maxTotal depth : Nat) : Except Stop SchemaAnswset := do
  let groups ← self.groupLoop depth formulae 0 ⟨[], fun _ => 0⟩
  let schemata ← (topExprs maxTotal (order.arrange groups.schemaGroup)).mapM (self.exprSchema groups.cutoffs)
  return ⟨schemata, castInt groups.schemaGroup.length⟩

end SchemaEngine

end MathWebSearch
