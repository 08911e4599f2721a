/-
**Encoding and decoding expressions** (`mws/index/ExpressionEncoder.{hpp,cpp}`).

An encoder object keeps a pointer to the meaning dictionary and, for the renaming of `ci` elements, a
table and a counter; all three outlive one call of `encode`. A `HarvestEncoder` adds new meanings to
the dictionary, a `QueryEncoder` does not and fails on them.

* `encode` — the traversal, token by token, with its early return on a too high arity.
* `encode_arities` — the arities of an encoding that was accepted.
-/

import MathWebSearch.Types.CmmlToken
import MathWebSearch.Types.EncodedToken
import MathWebSearch.Types.IdDictionary

namespace MathWebSearch

open CmmlToken

abbrev MeaningDictionary := IdDictionary Str

/-- `ExpressionEncoder::Config`. -/
structure EncoderConfig where
  renameCi : Bool := false

/-- Which of the two classes an encoder is of. -/
inductive EncoderKind where
  | harvest
  | query
deriving DecidableEq

/-- The members of an encoder; the dictionary is the one it points to. -/
structure ExpressionEncoder where
  meaningDictionary : MeaningDictionary
  ciTranslations : List (Str × Str)
  ciTranslationCounter : Nat

/-- What `encode` reports besides the formula. -/
structure ExpressionInfo (D : Doubles) where
  qvarNames : List Str
  qvarXpaths : List Str
  rangeBounds : List (Nat × D.Carrier × D.Carrier)

namespace ExpressionEncoder

/-- The constructor. -/
def new (dictionary : MeaningDictionary) : ExpressionEncoder := ⟨dictionary, [], 0⟩

/-- `_getAnonVarOffset`, the same in both classes. -/
def getAnonVarOffset : Nat := anonHvarIdMin

/-- `_getNamedVarOffset`, the same in both classes. -/
def getNamedVarOffset : Nat := hvarIdMin

/-- `_getRangeOffset`, the same in both classes. -/
def getRangeOffset : Nat := rangeIdMin

/-- `_getConstantEncoding`. -/
def getConstantEncoding (kind : EncoderKind) (self : ExpressionEncoder) (meaning : Str) :
    ExpressionEncoder × Nat :=
  match kind with
  | .harvest =>
    let (dictionary, id) := self.meaningDictionary.put meaning
    ({ self with meaningDictionary := dictionary }, constantIdMin + id)
  | .query =>
    let id := self.meaningDictionary.get meaning
    (self, if id ≠ IdDictionary.keyNotFound then constantIdMin + id else IdDictionary.keyNotFound)

def ciTag : Str := ['c', 'i']
def applyTag : Str := ['a', 'p', 'p', 'l', 'y']

/-- The `ci` elements that are not renamed: two meanings, a content of more than one character, and the
first child of an `apply`. -/
def keepsCi (located : Located) : Bool :=
  located.token.getMeaning = ['#', 'P'] || located.token.getMeaning = ['#', 'p'] ||
    2 + located.token.getTag.length < located.token.getMeaning.length ||
    (located.parent.map getTag = some applyTag && located.position.head? = some 1)

/-- The meaning a `ci` element is encoded under. -/
def translateCi (self : ExpressionEncoder) (located : Located) : ExpressionEncoder × Str :=
  let tokMeaning := located.token.getMeaning
  if keepsCi located then (self, tokMeaning)
  else
    match self.ciTranslations.lookup tokMeaning with
    | some translated => (self, translated)
    | none =>
      let counter := (self.ciTranslationCounter + 1) % 2 ^ 32
      let translated := '~' :: toStr counter
      ({ self with
          ciTranslations := self.ciTranslations ++ [(tokMeaning, translated)]
          ciTranslationCounter := counter }, translated)

/-- `_getCiMeaning`. -/
def getCiMeaning (kind : EncoderKind) (self : ExpressionEncoder) (located : Located) :
    ExpressionEncoder × Nat :=
  let (self, meaning) := self.translateCi located
  self.getConstantEncoding kind meaning

/-- The variables of `encode` between two rounds of its loop. -/
structure Round (D : Doubles) where
  encoder : ExpressionEncoder
  namedVarDictionary : IdDictionary Str
  anonVarId : Nat
  anonRangeId : Nat
  rv : Int
  encodedFormula : EncodedFormula
  expressionInfo : Option (ExpressionInfo D)

variable {D : Doubles}

/-- One round: encode a token. `none` is the early return. -/
def encodeToken (kind : EncoderKind) (config : EncoderConfig) (round : Round D) (located : Located) :
    Option (Round D) :=
  let token := located.token
  if token.isVar then
    let qvarName := token.getVarName
    if qvarName = [] then
      some { round with
        anonVarId := round.anonVarId + 1
        encodedFormula := round.encodedFormula ++ [encodedToken (getAnonVarOffset + round.anonVarId) 1] }
    else
      let (dictionary, id) := round.namedVarDictionary.put qvarName
      some { round with
        namedVarDictionary := dictionary
        encodedFormula := round.encodedFormula ++ [encodedToken (getNamedVarOffset + id) 1]
        expressionInfo := round.expressionInfo.map fun info =>
          { info with
            qvarNames := info.qvarNames ++ [qvarName]
            qvarXpaths := info.qvarXpaths ++ [located.getXpathRelative] } }
  else if token.isRange then
    let encoded := encodedToken (getRangeOffset + round.anonRangeId) 1
    some { round with
      anonRangeId := round.anonRangeId + 1
      encodedFormula := round.encodedFormula ++ [encoded]
      -- `insert` leaves a bound that is already there
      expressionInfo := round.expressionInfo.map fun info =>
        { info with rangeBounds := info.rangeBounds ++ [(encoded.id, token.getRangeBounds D)] } }
  else if encTokMaxArity < token.getArity then none
  else
    let (encoder, id) :=
      if config.renameCi && token.getTag = ciTag then round.encoder.getCiMeaning kind located
      else round.encoder.getConstantEncoding kind token.getMeaning
    let encoded := encodedToken id token.getArity
    some { round with
      encoder := encoder
      encodedFormula := round.encodedFormula ++ [encoded]
      rv := if encoded.id = IdDictionary.keyNotFound then -1 else round.rv }

/-- The loop over the tokens. -/
def encodeLoop (kind : EncoderKind) (config : EncoderConfig) : List Located → Round D → Round D × Int
  | [], round => (round, round.rv)
  | located :: rest, round =>
    match encodeToken kind config round located with
    | some round => encodeLoop kind config rest round
    | none => (round, -1)

/-- The variables of `encode` at the start. -/
def startRound (self : ExpressionEncoder) (info : Option (ExpressionInfo D)) : Round D :=
  ⟨self, IdDictionary.empty, 0, 0, 0, [], info⟩

/-- `encode`: the variables at the end, with the encoder and the formula, and the value returned. The
expression may be an inner node; the tokens then know the parents and the xpaths of the whole tree. -/
def encode (kind : EncoderKind) (self : ExpressionEncoder) (config : EncoderConfig)
    (expression : Located) (info : Option (ExpressionInfo D)) : Round D × Int :=
  encodeLoop kind config (dfs [expression]) (self.startRound info)

end ExpressionEncoder

/-- `ExpressionDecoder`: the reverse lookup table of a dictionary. -/
structure ExpressionDecoder where
  lookupTable : List Str

namespace ExpressionDecoder

def new (dictionary : MeaningDictionary) : ExpressionDecoder := ⟨dictionary.getReverseLookupTable⟩

def rangeText : Str := ['r', 'a', 'n', 'g', 'e', '#']
def qvarText : Str := ['q', 'v', 'a', 'r', '#']
def hvarText : Str := ['h', 'v', 'a', 'r', '#']
def anonymousText : Str := ['a', 'n', 'o', 'n', 'y', 'm', 'o', 'u', 's', '_']

/-- `getMeaning`; `none` where it throws. The number of an anonymous harvest variable is taken from the
wrong block, as in the source, and wraps round. -/
def getMeaning (self : ExpressionDecoder) (meaningId : Nat) : Option Str :=
  if constantIdMin ≤ meaningId then
    IdDictionary.reverseLookup self.lookupTable (meaningId - constantIdMin)
  else if rangeIdMin ≤ meaningId then some (rangeText ++ toStr (meaningId - rangeIdMin))
  else if anonQvarIdMin ≤ meaningId then
    some (anonymousText ++ qvarText ++ toStr (meaningId - anonQvarIdMin))
  else if qvarIdMin ≤ meaningId then some (qvarText ++ toStr (meaningId - qvarIdMin))
  else if anonHvarIdMin ≤ meaningId then
    some (anonymousText ++ hvarText ++ toStr ((meaningId + 2 ^ 32 - anonQvarIdMin) % 2 ^ 32))
  else if hvarIdMin ≤ meaningId then some (hvarText ++ toStr (meaningId - hvarIdMin))
  else none

end ExpressionDecoder

end MathWebSearch
