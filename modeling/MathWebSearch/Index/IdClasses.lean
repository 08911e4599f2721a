/-
**The id classes of encoded tokens** (`ExpressionEncoder::encode` against the predicates of `encoded_token.h`).

`encode` numbers named variables, anonymous variables, ranges and constants each from the start of a block of ids, with
no check that the block is long enough.

* `IdClasses` — every node is classified as what it is, and ids are shared exactly where they should be.
* `idAfter` — the id of a node behind the nodes in front of it, in closed form.
* `bounds_of_classified`, `encodedFormula_assigned` — the closed form holds as long as no block spills over, and where
  a block spills over a node is misclassified.
* `idClasses_iff` — at most 31 names, 31 anonymous variables and 32 ranges, and constants whose numbers fit into 24 bits.
-/

import MathWebSearch.Index.EncodingInjective

namespace MathWebSearch

open CmmlToken IdDictionary

namespace ExpressionEncoder

variable {D : Doubles}

/-! ### What is asked of the ids -/

/-- The three predicates say what the node is; a constant is none of the three. -/
def Classified (token : CmmlToken) (encoded : EncodedToken) : Prop :=
  encoded.isVar = token.isVar ∧ encoded.isAnonVar = (token.isVar && decide (token.getVarName = [])) ∧
    encoded.isRange = token.isRange

/-- **The id classes**, for nodes and the tokens they are encoded as. -/
structure IdClasses (nodes : List Located) (formula : EncodedFormula) : Prop where
  classified : ∀ pair ∈ nodes.zip formula, Classified pair.1.token pair.2
  vars : (nodes.zip formula).Pairwise fun first second =>
    first.1.token.isVar = true → second.1.token.isVar = true →
      (first.2.id = second.2.id ↔
        first.1.token.getVarName = second.1.token.getVarName ∧ first.1.token.getVarName ≠ [])
  ranges : (nodes.zip formula).Pairwise fun first second =>
    first.1.token.isRange = true → second.1.token.isRange = true → first.2.id ≠ second.2.id
  constants : (nodes.zip formula).Pairwise fun first second =>
    first.1.token.getType = .constant → second.1.token.getType = .constant →
      (first.2.id = second.2.id ↔ first.1.token.getMeaning = second.1.token.getMeaning)

/-! ### The kinds of nodes -/

/-- What `encode` sees of a node. -/
inductive NodeKind where
  | named (name : Str)
  | anonymous
  | range
  | constant (meaning : Str)
deriving DecidableEq

def nodeKind (token : CmmlToken) : NodeKind :=
  match token.getType with
  | .var => if token.getVarName = [] then .anonymous else .named token.getVarName
  | .range => .range
  | .constant => .constant token.getMeaning

def NodeKind.name? : NodeKind → Option Str
  | named name => some name
  | _ => none

def NodeKind.meaning? : NodeKind → Option Str
  | constant meaning => some meaning
  | _ => none

/-- The names of variables among nodes. -/
def varNames (kinds : List NodeKind) : List Str := kinds.filterMap NodeKind.name?

/-- The meanings of constants among nodes. -/
def meanings (kinds : List NodeKind) : List Str := kinds.filterMap NodeKind.meaning?

/-- The keys of the meaning dictionary behind nodes: a query encoder adds none. -/
def keysAfter (kind : EncoderKind) (keys : List Str) (kinds : List NodeKind) : List Str :=
  match kind with
  | .harvest => concatAll keys (meanings kinds)
  | .query => keys

/-- The id of a meaning, for a dictionary with the given keys. -/
def constantId (keys : List Str) (meaning : Str) : Nat :=
  if meaning ∈ keys then constantIdMin + numberOf keys meaning else keyNotFound

/-- The kinds of nodes. -/
def kindsOf (nodes : List Located) : List NodeKind := nodes.map fun located => nodeKind located.token

theorem append_kindsOf_cons (front : List NodeKind) (located : Located) (rest : List Located) :
    front ++ kindsOf (located :: rest) = (front ++ [nodeKind located.token]) ++ kindsOf rest := by
  rw [List.append_assoc]
  rfl

/-- The id of a node behind the nodes in front of it. -/
def idAfter (kind : EncoderKind) (keys : List Str) (front : List NodeKind) : NodeKind → Nat
  | .named name => hvarIdMin + numberOf (concatAll [] (varNames front ++ [name])) name
  | .anonymous => anonHvarIdMin + front.count .anonymous
  | .range => rangeIdMin + front.count .range
  | .constant meaning => constantId (keysAfter kind keys (front ++ [.constant meaning])) meaning

/-- The arity of a node. -/
def arityOf (token : CmmlToken) : Nat :=
  match token.getType with
  | .constant => token.getArity
  | _ => 1

/-- The tokens of nodes behind the nodes in front of them. -/
def assigned (kind : EncoderKind) (keys : List Str) : List NodeKind → List Located → EncodedFormula
  | _, [] => []
  | front, located :: rest =>
    encodedToken (idAfter kind keys front (nodeKind located.token)) (arityOf located.token) ::
      assigned kind keys (front ++ [nodeKind located.token]) rest

/-- No block has spilled over. -/
structure Bounds (kind : EncoderKind) (keys : List Str) (kinds : List NodeKind) : Prop where
  fewNames : (concatAll [] (varNames kinds)).length ≤ 31
  fewAnonymous : kinds.count .anonymous ≤ 31
  fewRanges : kinds.count .range ≤ 32
  fewKeys : (keysAfter kind keys kinds).length < 2 ^ 32 - 1

/-- The variables of `encode` behind nodes. -/
structure After (kind : EncoderKind) (keys : List Str) (front : List NodeKind) (round : Round D) : Prop where
  names : round.namedVarDictionary.Numbered (concatAll [] (varNames front))
  anonVarId : round.anonVarId = front.count .anonymous
  anonRangeId : round.anonRangeId = front.count .range
  dictionary : round.encoder.meaningDictionary.Numbered (keysAfter kind keys front)

/-! ### One node -/

theorem varNames_append (front back : List NodeKind) : varNames (front ++ back) = varNames front ++ varNames back :=
  List.filterMap_append

theorem meanings_append (front back : List NodeKind) : meanings (front ++ back) = meanings front ++ meanings back :=
  List.filterMap_append

theorem numberOf_concatNew_of_notMem {Key : Type} [DecidableEq Key] {keys : List Key} {key : Key} (absent : key ∉ keys) :
    numberOf (concatNew keys key) key = keys.length + 1 := by
  rw [concatNew, if_neg absent, numberOf, List.idxOf_append_of_notMem absent]
  simp

/-- `put` returns the place of the key, also when it is the last that fits. -/
theorem put_eq_numberOf {Key : Type} [DecidableEq Key] {self : IdDictionary Key} {keys : List Key}
    (numbered : self.Numbered keys) (key : Key) : (self.put key).2 = numberOf (concatNew keys key) key := by
  by_cases member : key ∈ keys
  · have found : self.get key ≠ keyNotFound := fun missing => (get_eq_keyNotFound_iff numbered).mp missing member
    rw [put, if_neg found, concatNew, if_pos member, get_eq_numberOf numbered member]
  · rw [put, if_pos ((get_eq_keyNotFound_iff numbered).mpr member), numberOf_concatNew_of_notMem member,
      numbered.nextId_eq]

theorem keysAfter_constant (keys : List Str) (front : List NodeKind) (meaning : Str) :
    keysAfter .harvest keys (front ++ [.constant meaning]) = concatNew (keysAfter .harvest keys front) meaning := by
  rw [keysAfter, meanings_append, concatAll_append]
  rfl

/-- The id of a constant. -/
theorem getConstantEncoding_id {kind : EncoderKind} {self : ExpressionEncoder} {keys : List Str}
    {front : List NodeKind} (numbered : self.meaningDictionary.Numbered (keysAfter kind keys front)) (meaning : Str) :
    (self.getConstantEncoding kind meaning).2 = constantId (keysAfter kind keys (front ++ [.constant meaning])) meaning := by
  cases kind with
  | harvest =>
    rw [keysAfter_constant, constantId, if_pos (mem_concatNew.mpr (Or.inr rfl)), ← put_eq_numberOf numbered]
    rfl
  | query =>
    show (if self.meaningDictionary.get meaning ≠ keyNotFound then _ else _) = constantId keys meaning
    rw [constantId]
    by_cases member : meaning ∈ keys
    · have found : self.meaningDictionary.get meaning ≠ keyNotFound :=
        fun missing => (get_eq_keyNotFound_iff numbered).mp missing member
      rw [if_pos member, if_pos found, get_eq_numberOf numbered member]
      rfl
    · rw [if_neg member, if_neg (not_not.mpr ((get_eq_keyNotFound_iff numbered).mpr member))]

/-- The dictionary behind a constant. -/
theorem getConstantEncoding_numbered {kind : EncoderKind} {self : ExpressionEncoder} {keys : List Str}
    {front : List NodeKind} (numbered : self.meaningDictionary.Numbered (keysAfter kind keys front)) {meaning : Str}
    (small : (keysAfter kind keys (front ++ [.constant meaning])).length < 2 ^ 32 - 1) :
    (self.getConstantEncoding kind meaning).1.meaningDictionary.Numbered
      (keysAfter kind keys (front ++ [.constant meaning])) := by
  cases kind with
  | harvest =>
    rw [keysAfter_constant] at small ⊢
    exact (put_spec numbered small).1
  | query => exact numbered

/-- What a node writes, and the variables behind it. -/
structure Writes (kind : EncoderKind) (keys : List Str) (front : List NodeKind) (round : Round D) (located : Located) :
    Prop where
  formula : (encodeNode kind ⟨false⟩ round located).encodedFormula = round.encodedFormula ++
    [encodedToken (idAfter kind keys front (nodeKind located.token)) (arityOf located.token)]
  after : (concatAll [] (varNames (front ++ [nodeKind located.token]))).length < 2 ^ 32 - 1 →
    (keysAfter kind keys (front ++ [nodeKind located.token])).length < 2 ^ 32 - 1 →
    After kind keys (front ++ [nodeKind located.token]) (encodeNode kind ⟨false⟩ round located)

theorem varNames_concat_other {kind : NodeKind} (other : kind.name? = none) (front : List NodeKind) :
    varNames (front ++ [kind]) = varNames front := by
  rw [varNames_append, varNames, varNames, List.filterMap_cons_none other, List.filterMap_nil, List.append_nil]

theorem keysAfter_concat_other (kind : EncoderKind) (keys : List Str) {node : NodeKind} (other : node.meaning? = none)
    (front : List NodeKind) : keysAfter kind keys (front ++ [node]) = keysAfter kind keys front := by
  cases kind with
  | harvest =>
    rw [keysAfter, keysAfter, meanings_append, meanings, meanings, List.filterMap_cons_none other, List.filterMap_nil,
      List.append_nil]
  | query => rfl

theorem count_concat_self (node : NodeKind) (front : List NodeKind) :
    (front ++ [node]).count node = front.count node + 1 := by
  rw [List.count_append, List.count_singleton_self]

theorem count_concat_other {node other : NodeKind} (different : node ≠ other) (front : List NodeKind) :
    (front ++ [node]).count other = front.count other := by
  rw [List.count_append, List.count_singleton, if_neg (by simpa using different), Nat.add_zero]

section Nodes

variable {kind : EncoderKind} {keys : List Str} {front : List NodeKind} {round : Round D} {located : Located}

theorem After.writes_anonymous (after : After kind keys front round) (isVar : located.token.getType = .var)
    (anonymous : located.token.getVarName = []) : Writes kind keys front round located := by
  have kindEq : nodeKind located.token = .anonymous := by rw [nodeKind, isVar]; exact if_pos anonymous
  have test : located.token.isVar = true := by rw [CmmlToken.isVar, isVar]; rfl
  have node : encodeNode kind ⟨false⟩ round located = { round with
      anonVarId := round.anonVarId + 1
      encodedFormula := round.encodedFormula ++ [encodedToken (getAnonVarOffset + round.anonVarId) 1] } := by
    unfold encodeNode encodeToken
    simp only [test, if_true, anonymous]
    rfl
  constructor
  · rw [node, kindEq, arityOf, isVar, idAfter, ← after.anonVarId]
    rfl
  · intro _ _
    rw [node, kindEq]
    refine ⟨?_, ?_, ?_, ?_⟩
    · rw [varNames_concat_other rfl]
      exact after.names
    · rw [count_concat_self, ← after.anonVarId]
    · rw [count_concat_other (by decide)]
      exact after.anonRangeId
    · rw [keysAfter_concat_other kind keys rfl]
      exact after.dictionary

theorem After.writes_named (after : After kind keys front round) (isVar : located.token.getType = .var)
    (named : located.token.getVarName ≠ []) : Writes kind keys front round located := by
  have kindEq : nodeKind located.token = .named located.token.getVarName := by
    rw [nodeKind, isVar]; exact if_neg named
  have test : located.token.isVar = true := by rw [CmmlToken.isVar, isVar]; rfl
  have names : concatAll [] (varNames (front ++ [.named located.token.getVarName])) =
      concatNew (concatAll [] (varNames front)) located.token.getVarName := by
    rw [varNames_append, concatAll_append]
    rfl
  have formula : (encodeNode kind ⟨false⟩ round located).encodedFormula = round.encodedFormula ++
      [encodedToken (getNamedVarOffset + (round.namedVarDictionary.put located.token.getVarName).2) 1] := by
    unfold encodeNode encodeToken
    simp only [test, if_true, if_neg named]
    rfl
  have rest : (encodeNode kind ⟨false⟩ round located).namedVarDictionary =
        (round.namedVarDictionary.put located.token.getVarName).1 ∧
      (encodeNode kind ⟨false⟩ round located).anonVarId = round.anonVarId ∧
      (encodeNode kind ⟨false⟩ round located).anonRangeId = round.anonRangeId ∧
      (encodeNode kind ⟨false⟩ round located).encoder = round.encoder := by
    unfold encodeNode encodeToken
    simp only [test, if_true, if_neg named]
    exact ⟨rfl, rfl, rfl, rfl⟩
  constructor
  · rw [formula, kindEq, arityOf, isVar, idAfter, put_eq_numberOf after.names, concatAll_append]
    rfl
  · intro small _
    rw [kindEq] at small ⊢
    refine ⟨?_, ?_, ?_, ?_⟩
    · rw [names] at small ⊢
      rw [rest.1]
      exact (put_spec after.names small).1
    · rw [rest.2.1, count_concat_other (by simp)]
      exact after.anonVarId
    · rw [rest.2.2.1, count_concat_other (by simp)]
      exact after.anonRangeId
    · rw [rest.2.2.2, keysAfter_concat_other kind keys rfl]
      exact after.dictionary

theorem After.writes_range (after : After kind keys front round) (isRange : located.token.getType = .range) :
    Writes kind keys front round located := by
  have kindEq : nodeKind located.token = .range := by rw [nodeKind, isRange]
  have noVar : located.token.isVar = false := by rw [CmmlToken.isVar, isRange]; rfl
  have test : located.token.isRange = true := by rw [CmmlToken.isRange, isRange]; rfl
  have formula : (encodeNode kind ⟨false⟩ round located).encodedFormula = round.encodedFormula ++
      [encodedToken (getRangeOffset + round.anonRangeId) 1] := by
    unfold encodeNode encodeToken
    simp only [noVar, Bool.false_eq_true, if_false, test, if_true]
    rfl
  have rest : (encodeNode kind ⟨false⟩ round located).namedVarDictionary = round.namedVarDictionary ∧
      (encodeNode kind ⟨false⟩ round located).anonVarId = round.anonVarId ∧
      (encodeNode kind ⟨false⟩ round located).anonRangeId = round.anonRangeId + 1 ∧
      (encodeNode kind ⟨false⟩ round located).encoder = round.encoder := by
    unfold encodeNode encodeToken
    simp only [noVar, Bool.false_eq_true, if_false, test, if_true]
    exact ⟨rfl, rfl, rfl, rfl⟩
  constructor
  · rw [formula, kindEq, arityOf, isRange, idAfter, ← after.anonRangeId]
    rfl
  · intro _ _
    rw [kindEq]
    refine ⟨?_, ?_, ?_, ?_⟩
    · rw [rest.1, varNames_concat_other rfl]
      exact after.names
    · rw [rest.2.1, count_concat_other (by decide)]
      exact after.anonVarId
    · rw [rest.2.2.1, count_concat_self, ← after.anonRangeId]
    · rw [rest.2.2.2, keysAfter_concat_other kind keys rfl]
      exact after.dictionary

theorem After.writes_constant (after : After kind keys front round) (constant : located.token.getType = .constant)
    (goesOn : accepted located = true) : Writes kind keys front round located := by
  have kindEq : nodeKind located.token = .constant located.token.getMeaning := by rw [nodeKind, constant]
  have narrow : located.token.getArity ≤ encTokMaxArity := by
    rw [accepted, CmmlToken.isVar, CmmlToken.isRange, constant] at goesOn
    exact of_decide_eq_true goesOn
  have node := @encodeNode_plain D kind ⟨false⟩ round located ⟨constant, narrow⟩
  simp only [constantName, Bool.false_and, Bool.false_eq_true, if_false] at node
  constructor
  · rw [node, kindEq, arityOf, constant, idAfter, ← getConstantEncoding_id after.dictionary]
  · intro _ small
    rw [kindEq] at small ⊢
    rw [node]
    refine ⟨?_, ?_, ?_, ?_⟩
    · rw [varNames_concat_other rfl]
      exact after.names
    · rw [count_concat_other (by simp)]
      exact after.anonVarId
    · rw [count_concat_other (by simp)]
      exact after.anonRangeId
    · exact getConstantEncoding_numbered after.dictionary small

/-- **One node**, whatever its kind. -/
theorem After.writes (after : After kind keys front round) (goesOn : accepted located = true) :
    Writes kind keys front round located := by
  cases type : located.token.getType with
  | var =>
    by_cases anonymous : located.token.getVarName = []
    · exact after.writes_anonymous type anonymous
    · exact after.writes_named type anonymous
  | range => exact after.writes_range type
  | constant => exact after.writes_constant type goesOn

end Nodes

/-! ### Blocks that spill over -/

theorem nodeKind_cases (token : CmmlToken) :
    (token.getType = .var ∧ token.getVarName ≠ [] ∧ nodeKind token = .named token.getVarName) ∨
      (token.getType = .var ∧ token.getVarName = [] ∧ nodeKind token = .anonymous) ∨
      (token.getType = .range ∧ nodeKind token = .range) ∨
      (token.getType = .constant ∧ nodeKind token = .constant token.getMeaning) := by
  cases type : token.getType with
  | var =>
    by_cases anonymous : token.getVarName = []
    · exact .inr (.inl ⟨rfl, anonymous, by rw [nodeKind, type]; exact if_pos anonymous⟩)
    · exact .inl ⟨rfl, anonymous, by rw [nodeKind, type]; exact if_neg anonymous⟩
  | range => exact .inr (.inr (.inl ⟨rfl, by rw [nodeKind, type]⟩))
  | constant => exact .inr (.inr (.inr ⟨rfl, by rw [nodeKind, type]⟩))

theorem isVar_eq (encoded : EncodedToken) : encoded.isVar = decide (encoded.id ≤ 128) := rfl

theorem isAnonVar_eq (encoded : EncodedToken) : encoded.isAnonVar =
    (decide (33 ≤ encoded.id) && decide (encoded.id < 64) || decide (97 ≤ encoded.id) && decide (encoded.id < 128)) := rfl

theorem isRange_eq (encoded : EncodedToken) :
    encoded.isRange = (decide (129 ≤ encoded.id) && decide (encoded.id ≤ 160)) := rfl

/-- What the predicates say of a named variable. -/
theorem classified_named_iff {token : CmmlToken} (isVar : token.getType = .var) (named : token.getVarName ≠ [])
    (encoded : EncodedToken) : Classified token encoded ↔
      encoded.id ≤ 128 ∧ ¬(33 ≤ encoded.id ∧ encoded.id < 64) ∧ ¬(97 ≤ encoded.id ∧ encoded.id < 128) := by
  rw [Classified, CmmlToken.isVar, CmmlToken.isRange, isVar, isVar_eq, isAnonVar_eq, isRange_eq]
  simp [named]
  omega

theorem classified_anonymous_iff {token : CmmlToken} (isVar : token.getType = .var) (anonymous : token.getVarName = [])
    (encoded : EncodedToken) : Classified token encoded ↔
      (33 ≤ encoded.id ∧ encoded.id < 64) ∨ (97 ≤ encoded.id ∧ encoded.id < 128) := by
  rw [Classified, CmmlToken.isVar, CmmlToken.isRange, isVar, isVar_eq, isAnonVar_eq, isRange_eq]
  simp [anonymous]
  omega

theorem classified_range_iff {token : CmmlToken} (isRange : token.getType = .range) (encoded : EncodedToken) :
    Classified token encoded ↔ 129 ≤ encoded.id ∧ encoded.id ≤ 160 := by
  rw [Classified, CmmlToken.isVar, CmmlToken.isRange, isRange, isVar_eq, isAnonVar_eq, isRange_eq]
  simp
  omega

theorem classified_constant_iff {token : CmmlToken} (constant : token.getType = .constant) (encoded : EncodedToken) :
    Classified token encoded ↔ 161 ≤ encoded.id := by
  rw [Classified, CmmlToken.isVar, CmmlToken.isRange, constant, isVar_eq, isAnonVar_eq, isRange_eq]
  simp
  omega

/-- **A node that is classified as what it is has not spilled over.** -/
theorem Bounds.concat {kind : EncoderKind} {keys : List Str} {front : List NodeKind} (bounds : Bounds kind keys front)
    {token : CmmlToken} {arity : Nat}
    (classified : Classified token (encodedToken (idAfter kind keys front (nodeKind token)) arity)) :
    Bounds kind keys (front ++ [nodeKind token]) := by
  obtain ⟨fewNames, fewAnonymous, fewRanges, fewKeys⟩ := bounds
  rcases nodeKind_cases token with ⟨isVar, named, same⟩ | ⟨isVar, anonymous, same⟩ | ⟨isRange, same⟩ |
    ⟨constant, same⟩
  · rw [classified_named_iff isVar named, same] at classified
    rw [same]
    refine ⟨?_, ?_, ?_, ?_⟩
    · rw [varNames_append, concatAll_append]
      show (concatNew (concatAll [] (varNames front)) token.getVarName).length ≤ 31
      by_cases member : token.getVarName ∈ concatAll [] (varNames front)
      · rw [concatNew, if_pos member]
        exact fewNames
      · have id : idAfter kind keys front (.named token.getVarName) = (concatAll [] (varNames front)).length + 2 := by
          rw [idAfter, concatAll_append]
          show hvarIdMin + numberOf (concatNew (concatAll [] (varNames front)) token.getVarName) _ = _
          rw [numberOf_concatNew_of_notMem member, hvarIdMin]
          omega
        rw [encodedToken_id, id] at classified
        rw [concatNew, if_neg member, List.length_append, List.length_singleton]
        omega
    · rw [count_concat_other (by simp)]
      exact fewAnonymous
    · rw [count_concat_other (by simp)]
      exact fewRanges
    · rw [keysAfter_concat_other kind keys rfl]
      exact fewKeys
  · rw [classified_anonymous_iff isVar anonymous, same] at classified
    rw [same]
    refine ⟨?_, ?_, ?_, ?_⟩
    · rw [varNames_concat_other rfl]
      exact fewNames
    · rw [count_concat_self]
      simp only [encodedToken_id, idAfter, anonHvarIdMin] at classified
      omega
    · rw [count_concat_other (by simp)]
      exact fewRanges
    · rw [keysAfter_concat_other kind keys rfl]
      exact fewKeys
  · rw [classified_range_iff isRange, same] at classified
    rw [same]
    refine ⟨?_, ?_, ?_, ?_⟩
    · rw [varNames_concat_other rfl]
      exact fewNames
    · rw [count_concat_other (by simp)]
      exact fewAnonymous
    · rw [count_concat_self]
      simp only [encodedToken_id, idAfter, rangeIdMin] at classified
      omega
    · rw [keysAfter_concat_other kind keys rfl]
      exact fewKeys
  · rw [classified_constant_iff constant, same] at classified
    rw [same]
    refine ⟨?_, ?_, ?_, ?_⟩
    · rw [varNames_concat_other rfl]
      exact fewNames
    · rw [count_concat_other (by simp)]
      exact fewAnonymous
    · rw [count_concat_other (by simp)]
      exact fewRanges
    · cases kind with
      | query => exact fewKeys
      | harvest =>
        rw [idAfter, keysAfter_constant, constantId, if_pos (mem_concatNew.mpr (Or.inr rfl))] at classified
        rw [keysAfter_constant]
        by_cases member : token.getMeaning ∈ keysAfter .harvest keys front
        · rw [concatNew, if_pos member]
          exact fewKeys
        · -- the last number of the dictionary would give the id 160 of a range
          rw [numberOf_concatNew_of_notMem member, encodedToken_id, constantIdMin] at classified
          rw [concatNew, if_neg member, List.length_append, List.length_singleton]
          omega

/-! ### All nodes -/

theorem Bounds.front {kind : EncoderKind} {keys : List Str} {front back : List NodeKind}
    (bounds : Bounds kind keys (front ++ back)) : Bounds kind keys front := by
  obtain ⟨fewNames, fewAnonymous, fewRanges, fewKeys⟩ := bounds
  rw [varNames_append, concatAll_append] at fewNames
  rw [List.count_append] at fewAnonymous fewRanges
  refine ⟨le_trans (length_le_concatAll _ _) fewNames, by omega, by omega, ?_⟩
  cases kind with
  | harvest =>
    rw [keysAfter, meanings_append, concatAll_append] at fewKeys
    exact lt_of_le_of_lt (length_le_concatAll _ _) fewKeys
  | query => exact fewKeys

/-- The variables of `encode` behind one more node. -/
theorem After.next {kind : EncoderKind} {keys : List Str} {front : List NodeKind} {round : Round D} {located : Located}
    (after : After kind keys front round) (goesOn : accepted located = true)
    (bounds : Bounds kind keys (front ++ [nodeKind located.token])) :
    After kind keys (front ++ [nodeKind located.token]) (encodeNode kind ⟨false⟩ round located) :=
  (after.writes goesOn).after (lt_of_le_of_lt bounds.fewNames (by decide)) bounds.fewKeys

/-- The formula only grows. -/
theorem encodedFormula_grows (kind : EncoderKind) (config : EncoderConfig) (nodes : List Located) :
    ∀ round : Round D, round.encodedFormula <+: (nodes.foldl (encodeNode kind config) round).encodedFormula := by
  induction nodes with
  | nil => intro round; exact List.prefix_rfl
  | cons located rest ih =>
    intro round
    refine List.IsPrefix.trans ?_ (ih (encodeNode kind config round located))
    unfold encodeNode encodeToken
    simp only []
    split_ifs <;> simp

/-- **As long as no block spills over, the ids are those in closed form.** -/
theorem encodedFormula_assigned {kind : EncoderKind} {keys : List Str} {nodes : List Located} :
    ∀ {front : List NodeKind} {round : Round D}, After kind keys front round →
      (∀ located ∈ nodes, accepted located = true) →
      Bounds kind keys (front ++ kindsOf nodes) →
      (nodes.foldl (encodeNode kind ⟨false⟩) round).encodedFormula =
        round.encodedFormula ++ assigned kind keys front nodes := by
  induction nodes with
  | nil => intro front round _ _ _; exact (List.append_nil _).symm
  | cons located rest ih =>
    intro front round after all bounds
    have goesOn := all located List.mem_cons_self
    rw [append_kindsOf_cons] at bounds
    rw [List.foldl_cons, ih (after.next goesOn bounds.front) (fun other member => all other (List.mem_cons_of_mem _ member))
      bounds, (after.writes goesOn).formula, assigned, List.append_assoc, List.singleton_append]

/-- **Where every node is classified as what it is, no block has spilled over.** -/
theorem bounds_of_classified {kind : EncoderKind} {keys : List Str} {nodes : List Located} :
    ∀ {front : List NodeKind} {round : Round D} {more : EncodedFormula}, After kind keys front round →
      Bounds kind keys front → (∀ located ∈ nodes, accepted located = true) →
      (nodes.foldl (encodeNode kind ⟨false⟩) round).encodedFormula = round.encodedFormula ++ more →
      (∀ pair ∈ nodes.zip more, Classified pair.1.token pair.2) →
      Bounds kind keys (front ++ kindsOf nodes) := by
  induction nodes with
  | nil => intro front round more _ bounds _ _ _; rwa [kindsOf, List.map_nil, List.append_nil]
  | cons located rest ih =>
    intro front round more after bounds all formula classified
    have goesOn := all located List.mem_cons_self
    have written := (after.writes goesOn).formula
    obtain ⟨later, continues⟩ := encodedFormula_grows kind ⟨false⟩ rest (encodeNode kind ⟨false⟩ round located)
    -- the first token of the rest is the one this node writes
    have split : more = encodedToken (idAfter kind keys front (nodeKind located.token)) (arityOf located.token) ::
        later := by
      rw [List.foldl_cons, ← continues, written, List.append_assoc, List.singleton_append] at formula
      exact (List.append_cancel_left formula).symm
    rw [split, List.zip_cons_cons] at classified
    have bounds' := bounds.concat (classified _ List.mem_cons_self)
    have result := ih (after.next goesOn bounds') bounds'
      (fun other member => all other (List.mem_cons_of_mem _ member)) continues.symm
      (fun pair member => classified pair (List.mem_cons_of_mem _ member))
    rwa [append_kindsOf_cons]

/-! ### The ids in closed form -/

/-- The id of a node that stands behind `front` in `total`. -/
structure Placed (kind : EncoderKind) (keys : List Str) (total front : List NodeKind) (pair : Located × EncodedToken) :
    Prop where
  inside : front ++ [nodeKind pair.1.token] <+: total
  id : pair.2.id = idAfter kind keys front (nodeKind pair.1.token) % 2 ^ 24

theorem length_assigned (kind : EncoderKind) (keys : List Str) (nodes : List Located) : ∀ front : List NodeKind,
    (assigned kind keys front nodes).length = nodes.length := by
  induction nodes with
  | nil => intro front; rfl
  | cons located rest ih => intro front; rw [assigned, List.length_cons, List.length_cons, ih]

/-- Every node is placed somewhere. -/
theorem placed_of_mem {kind : EncoderKind} {keys : List Str} {nodes : List Located} :
    ∀ {front : List NodeKind}, ∀ pair ∈ nodes.zip (assigned kind keys front nodes),
      ∃ middle, front <+: middle ∧ Placed kind keys (front ++ kindsOf nodes) middle pair := by
  induction nodes with
  | nil => intro front pair member; cases member
  | cons located rest ih =>
    intro front pair member
    rw [assigned, List.zip_cons_cons] at member
    rw [append_kindsOf_cons]
    rcases List.mem_cons.mp member with rfl | member
    · exact ⟨front, List.prefix_rfl, List.prefix_append _ _, rfl⟩
    · obtain ⟨middle, behind, placed⟩ := ih pair member
      exact ⟨middle, (List.prefix_append _ _).trans behind, placed⟩

/-- Two nodes are placed one behind the other. -/
theorem placed_pairwise {kind : EncoderKind} {keys : List Str} {nodes : List Located} : ∀ {front : List NodeKind},
    (nodes.zip (assigned kind keys front nodes)).Pairwise fun first second =>
      ∃ middle middle', middle ++ [nodeKind first.1.token] <+: middle' ∧
        Placed kind keys (front ++ kindsOf nodes) middle first ∧
        Placed kind keys (front ++ kindsOf nodes) middle' second := by
  induction nodes with
  | nil => intro front; exact .nil
  | cons located rest ih =>
    intro front
    rw [assigned, List.zip_cons_cons, append_kindsOf_cons, List.pairwise_cons]
    refine ⟨fun pair member => ?_, ih⟩
    obtain ⟨middle, behind, placed⟩ := placed_of_mem pair member
    exact ⟨front, middle, behind, ⟨List.prefix_append _ _, rfl⟩, placed⟩

section ClosedForm

variable {kind : EncoderKind} {keys : List Str} {total front : List NodeKind} {pair : Located × EncodedToken}

theorem mem_of_placed (placed : Placed kind keys total front pair) : nodeKind pair.1.token ∈ total :=
  placed.inside.subset (List.mem_append_right _ List.mem_cons_self)

theorem name_mem_of_placed (placed : Placed kind keys total front pair) {name : Str}
    (named : nodeKind pair.1.token = .named name) : name ∈ concatAll [] (varNames total) :=
  (mem_concatAll _).mpr (Or.inr (List.mem_filterMap.mpr ⟨_, mem_of_placed placed, by rw [named]; rfl⟩))

/-- A named variable: the number of its name. -/
theorem Placed.named_id (placed : Placed kind keys total front pair) {name : Str}
    (named : nodeKind pair.1.token = .named name) (bounds : Bounds kind keys total) :
    pair.2.id = 1 + numberOf (concatAll [] (varNames total)) name := by
  obtain ⟨back, rfl⟩ := placed.inside
  have number := numberOf_le (name_mem_of_placed placed named)
  have few := bounds.fewNames
  have same : numberOf (concatAll [] (varNames (front ++ [nodeKind pair.1.token] ++ back))) name =
      numberOf (concatAll [] (varNames front ++ [name])) name := by
    rw [varNames_append, varNames_append, named, concatAll_append]
    exact numberOf_concatAll _ ((mem_concatAll _).mpr (Or.inr (List.mem_append_right _ List.mem_cons_self)))
  rw [placed.id, named, idAfter, ← same, hvarIdMin, Nat.mod_eq_of_lt (by omega), named]

/-- A constant: the number of its meaning. -/
theorem Placed.constant_id (placed : Placed kind keys total front pair) {meaning : Str}
    (constant : nodeKind pair.1.token = .constant meaning) :
    pair.2.id = constantId (keysAfter kind keys total) meaning % 2 ^ 24 := by
  rw [placed.id, constant, idAfter]
  cases kind with
  | query => rfl
  | harvest =>
    obtain ⟨back, rfl⟩ := placed.inside
    have member : meaning ∈ keysAfter .harvest keys (front ++ [.constant meaning]) := by
      rw [keysAfter_constant]
      exact mem_concatNew.mpr (Or.inr rfl)
    have grown : keysAfter .harvest keys (front ++ [nodeKind pair.1.token] ++ back) =
        concatAll (keysAfter .harvest keys (front ++ [.constant meaning])) (meanings back) := by
      rw [keysAfter, meanings_append, concatAll_append, constant]
      rfl
    rw [constantId, constantId, if_pos member, grown, if_pos ((mem_concatAll _).mpr (Or.inl member)),
      numberOf_concatAll _ member]

/-- An anonymous variable: the number of those in front. -/
theorem Placed.anonymous_id (placed : Placed kind keys total front pair)
    (anonymous : nodeKind pair.1.token = .anonymous) (bounds : Bounds kind keys total) :
    pair.2.id = 33 + front.count .anonymous ∧ front.count .anonymous < 31 := by
  have few := bounds.fewAnonymous
  have counted := placed.inside.sublist.count_le (NodeKind.anonymous)
  rw [anonymous, count_concat_self] at counted
  rw [placed.id, anonymous, idAfter, anonHvarIdMin, Nat.mod_eq_of_lt (by omega)]
  exact ⟨rfl, by omega⟩

/-- A range: the number of those in front. -/
theorem Placed.range_id (placed : Placed kind keys total front pair) (isRange : nodeKind pair.1.token = .range)
    (bounds : Bounds kind keys total) :
    pair.2.id = 129 + front.count .range ∧ front.count .range < 32 := by
  have few := bounds.fewRanges
  have counted := placed.inside.sublist.count_le (NodeKind.range)
  rw [isRange, count_concat_self] at counted
  rw [placed.id, isRange, idAfter, rangeIdMin, Nat.mod_eq_of_lt (by omega)]
  exact ⟨rfl, by omega⟩

end ClosedForm

/-! ### The condition -/

/-- The numbers of meanings fit into 24 bits behind the blocks, and different meanings keep different ids there. -/
def Separated (keys used : List Str) : Prop :=
  (∀ meaning ∈ used, meaning ∈ keys ∧ numberOf keys meaning % 2 ^ 24 ≤ 2 ^ 24 - 162) ∧
    ∀ meaning ∈ used, ∀ other ∈ used, numberOf keys meaning % 2 ^ 24 = numberOf keys other % 2 ^ 24 → meaning = other

section Condition

variable {kind : EncoderKind} {keys : List Str} {nodes : List Located}

theorem meaning_mem {located : Located} (member : located ∈ nodes) (constant : located.token.getType = .constant) :
    located.token.getMeaning ∈ meanings (kindsOf nodes) := by
  refine List.mem_filterMap.mpr ⟨nodeKind located.token, List.mem_map_of_mem member, ?_⟩
  rw [nodeKind, constant]
  rfl

/-- A meaning that is used belongs to a constant. -/
theorem exists_constant {meaning : Str} (used : meaning ∈ meanings (kindsOf nodes)) (front : List NodeKind) :
    ∃ pair ∈ nodes.zip (assigned kind keys front nodes), pair.1.token.getType = .constant ∧
      pair.1.token.getMeaning = meaning := by
  obtain ⟨node, member, isMeaning⟩ := List.mem_filterMap.mp used
  obtain ⟨located, visited, rfl⟩ := List.mem_map.mp member
  have first : (nodes.zip (assigned kind keys front nodes)).map Prod.fst = nodes :=
    List.map_fst_zip (by rw [length_assigned])
  rw [← first] at visited
  obtain ⟨pair, among, rfl⟩ := List.mem_map.mp visited
  refine ⟨pair, among, ?_⟩
  rcases nodeKind_cases pair.1.token with ⟨-, -, same⟩ | ⟨-, -, same⟩ | ⟨-, same⟩ | ⟨constant, same⟩
  · rw [same] at isMeaning; cases isMeaning
  · rw [same] at isMeaning; cases isMeaning
  · rw [same] at isMeaning; cases isMeaning
  · rw [same] at isMeaning
    exact ⟨constant, Option.some.inj isMeaning⟩

/-- The kinds of nodes, read backwards. -/
theorem nodeKind_constant {token : CmmlToken} (constant : token.getType = .constant) :
    nodeKind token = .constant token.getMeaning := by rw [nodeKind, constant]

theorem nodeKind_range {token : CmmlToken} (isRange : token.isRange = true) : nodeKind token = .range := by
  have type : token.getType = .range := of_decide_eq_true isRange
  rw [nodeKind, type]

theorem classified_assigned (bounds : Bounds kind keys (kindsOf nodes))
    (separated : Separated (keysAfter kind keys (kindsOf nodes)) (meanings (kindsOf nodes))) :
    ∀ pair ∈ nodes.zip (assigned kind keys [] nodes), Classified pair.1.token pair.2 := by
  intro pair member
  obtain ⟨middle, -, placed⟩ := placed_of_mem pair member
  rw [List.nil_append] at placed
  rcases nodeKind_cases pair.1.token with ⟨isVar, named, same⟩ | ⟨isVar, anonymous, same⟩ | ⟨isRange, same⟩ |
    ⟨constant, same⟩
  · rw [classified_named_iff isVar named, placed.named_id same bounds]
    have := numberOf_le (name_mem_of_placed placed same)
    have := bounds.fewNames
    omega
  · rw [classified_anonymous_iff isVar anonymous]
    obtain ⟨id, few⟩ := placed.anonymous_id same bounds
    omega
  · rw [classified_range_iff isRange]
    obtain ⟨id, few⟩ := placed.range_id same bounds
    omega
  · have used := meaning_mem (List.of_mem_zip member).1 constant
    obtain ⟨known, fits⟩ := separated.1 _ used
    rw [classified_constant_iff constant, placed.constant_id same, constantId, if_pos known, constantIdMin]
    omega

/-- A variable has a name or has none. -/
theorem nodeKind_var {token : CmmlToken} (isVar : token.isVar = true) :
    (token.getVarName ≠ [] ∧ nodeKind token = .named token.getVarName) ∨
      (token.getVarName = [] ∧ nodeKind token = .anonymous) := by
  have type : token.getType = .var := of_decide_eq_true isVar
  rw [nodeKind, type]
  by_cases anonymous : token.getVarName = []
  · exact .inr ⟨anonymous, if_pos anonymous⟩
  · exact .inl ⟨anonymous, if_neg anonymous⟩

theorem vars_assigned (bounds : Bounds kind keys (kindsOf nodes)) {first second : Located × EncodedToken}
    {middle middle' : List NodeKind} (behind : middle ++ [nodeKind first.1.token] <+: middle')
    (placed : Placed kind keys (kindsOf nodes) middle first) (placed' : Placed kind keys (kindsOf nodes) middle' second)
    (isVar : first.1.token.isVar = true) (isVar' : second.1.token.isVar = true) :
    first.2.id = second.2.id ↔
      first.1.token.getVarName = second.1.token.getVarName ∧ first.1.token.getVarName ≠ [] := by
  have few := bounds.fewNames
  rcases nodeKind_var isVar with ⟨named, same⟩ | ⟨anonymous, same⟩
  · have member := name_mem_of_placed placed same
    have number := numberOf_le member
    rcases nodeKind_var isVar' with ⟨named', same'⟩ | ⟨anonymous', same'⟩
    · rw [placed.named_id same bounds, placed'.named_id same' bounds]
      refine ⟨fun equal => ⟨numberOf_inj member (by omega), named⟩, fun equal => by rw [equal.1]⟩
    · rw [placed.named_id same bounds, (placed'.anonymous_id same' bounds).1]
      refine ⟨fun equal => absurd equal (by omega), fun equal => absurd (equal.1.trans anonymous') named⟩
  · obtain ⟨id, -⟩ := placed.anonymous_id same bounds
    refine ⟨fun equal => absurd equal ?_, fun equal => absurd anonymous equal.2⟩
    rcases nodeKind_var isVar' with ⟨named', same'⟩ | ⟨anonymous', same'⟩
    · have number := numberOf_le (name_mem_of_placed placed' same')
      rw [id, placed'.named_id same' bounds]
      omega
    · obtain ⟨id', -⟩ := placed'.anonymous_id same' bounds
      have counted := behind.sublist.count_le NodeKind.anonymous
      rw [same, count_concat_self] at counted
      omega

/-- Nodes that are classified and constants that are told apart. -/
theorem separated_of_assigned
    (classified : ∀ pair ∈ nodes.zip (assigned kind keys [] nodes), Classified pair.1.token pair.2)
    (constants : (nodes.zip (assigned kind keys [] nodes)).Pairwise fun first second =>
      first.1.token.getType = .constant → second.1.token.getType = .constant →
        (first.2.id = second.2.id ↔ first.1.token.getMeaning = second.1.token.getMeaning)) :
    Separated (keysAfter kind keys (kindsOf nodes)) (meanings (kindsOf nodes)) := by
  have known : ∀ pair ∈ nodes.zip (assigned kind keys [] nodes), pair.1.token.getType = .constant →
      pair.1.token.getMeaning ∈ keysAfter kind keys (kindsOf nodes) ∧
      pair.2.id = (161 + numberOf (keysAfter kind keys (kindsOf nodes)) pair.1.token.getMeaning) % 2 ^ 24 ∧
      161 ≤ pair.2.id := by
    intro pair among constant
    obtain ⟨middle, -, placed⟩ := placed_of_mem pair among
    have id := placed.constant_id (nodeKind_constant constant)
    have inClass := (classified_constant_iff constant _).mp (classified pair among)
    rw [List.nil_append, constantId] at id
    split_ifs at id with member
    · exact ⟨member, id, inClass⟩
    · rw [id] at inClass
      exact absurd inClass (by decide)
  refine ⟨fun meaning used => ?_, fun meaning used other used' same => ?_⟩
  · obtain ⟨pair, among, constant, rfl⟩ := exists_constant used []
    obtain ⟨member, id, inClass⟩ := known pair among constant
    exact ⟨member, by omega⟩
  · obtain ⟨pair, among, constant, rfl⟩ := exists_constant used []
    obtain ⟨pair', among', constant', rfl⟩ := exists_constant used' []
    obtain ⟨-, id, -⟩ := known pair among constant
    obtain ⟨-, id', -⟩ := known pair' among' constant'
    by_contra different
    have apart : pair ≠ pair' := fun equal => different (by rw [equal])
    have symmetric : Std.Symm fun first second : Located × EncodedToken =>
        first.1.token.getType = .constant → second.1.token.getType = .constant →
          (first.2.id = second.2.id ↔ first.1.token.getMeaning = second.1.token.getMeaning) := by
      refine ⟨fun first second told constant constant' => ?_⟩
      rw [eq_comm, told constant' constant, eq_comm]
    refine different ((constants.forall among among' apart constant constant').mp ?_)
    rw [id, id']
    omega

/-- **The ids in closed form are in their classes exactly when the constants are separated.** -/
theorem idClasses_assigned (bounds : Bounds kind keys (kindsOf nodes)) :
    IdClasses nodes (assigned kind keys [] nodes) ↔
      Separated (keysAfter kind keys (kindsOf nodes)) (meanings (kindsOf nodes)) := by
  constructor
  · rintro ⟨classified, -, -, constants⟩
    exact separated_of_assigned classified constants
  · intro separated
    refine ⟨classified_assigned bounds separated, ?_, ?_, ?_⟩
    · refine placed_pairwise.imp ?_
      rintro first second ⟨middle, middle', behind, placed, placed'⟩ isVar isVar'
      rw [List.nil_append] at placed placed'
      exact vars_assigned bounds behind placed placed' isVar isVar'
    · refine placed_pairwise.imp ?_
      rintro first second ⟨middle, middle', behind, placed, placed'⟩ isRange isRange'
      rw [List.nil_append] at placed placed'
      obtain ⟨id, -⟩ := placed.range_id (nodeKind_range isRange) bounds
      obtain ⟨id', -⟩ := placed'.range_id (nodeKind_range isRange') bounds
      have counted := behind.sublist.count_le NodeKind.range
      rw [nodeKind_range isRange, count_concat_self] at counted
      omega
    · refine (List.Pairwise.and_mem.mp placed_pairwise).imp ?_
      rintro first second ⟨member, member', middle, middle', -, placed, placed'⟩ constant constant'
      rw [List.nil_append] at placed placed'
      rw [placed.constant_id (nodeKind_constant constant), placed'.constant_id (nodeKind_constant constant')]
      have used := meaning_mem (List.of_mem_zip member).1 constant
      have used' := meaning_mem (List.of_mem_zip member').1 constant'
      refine ⟨fun same => separated.2 _ used _ used' ?_, fun same => by rw [same]⟩
      rw [constantId, constantId, if_pos (separated.1 _ used).1, if_pos (separated.1 _ used').1, constantIdMin] at same
      omega

end Condition

theorem numberOf_getElem {Key : Type} [DecidableEq Key] {keys : List Key} (nodup : keys.Nodup) {place : Nat}
    (inside : place < keys.length) : numberOf keys keys[place] = place + 1 := by
  rw [numberOf, nodup.idxOf_getElem]

/-- Constants that are separated leave the counter of the dictionary room. -/
theorem fewKeys_of_separated {kind : EncoderKind} {self : MeaningDictionary} {keys : List Str}
    (numbered : self.Numbered keys) {kinds : List NodeKind}
    (separated : Separated (keysAfter kind keys kinds) (meanings kinds)) :
    (keysAfter kind keys kinds).length < 2 ^ 32 - 1 := by
  have small := numbered.small
  cases kind with
  | query => exact small
  | harvest =>
    by_contra many
    -- the key with the last number is new, and its number leaves no room for the blocks
    have inside : 2 ^ 32 - 2 < (concatAll keys (meanings kinds)).length := by
      rw [keysAfter] at many
      omega
    have number := numberOf_getElem (nodup_concatAll (meanings kinds) numbered.nodup) inside
    rcases (mem_concatAll _).mp (List.getElem_mem inside) with old | new
    · have place := numberOf_le old
      rw [← numberOf_concatAll (meanings kinds) old, number] at place
      omega
    · have fits := (separated.1 _ new).2
      rw [keysAfter, number] at fits
      omega

section Trees

variable {self : ExpressionEncoder} {keys : List Str}

/-- The variables of `encode` at the start. -/
theorem after_startRound (kind : EncoderKind) (numbered : self.meaningDictionary.Numbered keys)
    (info : Option (ExpressionInfo D)) : After kind keys [] (self.startRound info) := by
  refine ⟨numbered_empty, rfl, rfl, ?_⟩
  cases kind <;> exact numbered

theorem encodedFormula_encode (kind : EncoderKind) (config : EncoderConfig) (tree : CmmlToken)
    (info : Option (ExpressionInfo D)) :
    (encode kind self config (.root tree) info).1.encodedFormula =
      (((foreachSubexpression tree).takeWhile accepted).foldl (encodeNode kind config)
        (self.startRound info)).encodedFormula := by
  rw [encode, encodeLoop_eq]
  rfl

/-- Where the nodes of a tree are in their classes, no block has spilled over. -/
theorem bounds_of_idClasses {kind : EncoderKind} (numbered : self.meaningDictionary.Numbered keys) {tree : CmmlToken}
    {info : Option (ExpressionInfo D)}
    (classes : IdClasses ((foreachSubexpression tree).takeWhile accepted)
      (encode kind self ⟨false⟩ (.root tree) info).1.encodedFormula) :
    Bounds kind keys (kindsOf ((foreachSubexpression tree).takeWhile accepted)) := by
  have start : Bounds kind keys [] := by
    refine ⟨by decide, by decide, by decide, ?_⟩
    cases kind <;> exact numbered.small
  rw [encodedFormula_encode] at classes
  exact bounds_of_classified (after_startRound kind numbered info) start
    (fun located member => List.mem_takeWhile_imp member) (List.nil_append _).symm classes.classified

/-- The ids of a tree in closed form. -/
theorem encode_assigned {kind : EncoderKind} (numbered : self.meaningDictionary.Numbered keys) {tree : CmmlToken}
    (info : Option (ExpressionInfo D))
    (bounds : Bounds kind keys (kindsOf ((foreachSubexpression tree).takeWhile accepted))) :
    (encode kind self ⟨false⟩ (.root tree) info).1.encodedFormula =
      assigned kind keys [] ((foreachSubexpression tree).takeWhile accepted) := by
  rw [encodedFormula_encode, encodedFormula_assigned (after_startRound kind numbered info)
    (fun located member => List.mem_takeWhile_imp member) bounds]
  rfl

end Trees

/-- **The id classes.** For every tree and every dictionary that has numbered its meanings, encoded without renaming: the
ids that `encode` gives to the nodes it gets to are classified as the nodes are, and shared between variables with the
same name and constants with the same meaning only, if and only if there are at most 31 names of variables, at most 31
variables without a name and at most 32 ranges, every constant has a number in the dictionary (as it is when all
meanings of the tree are in it, for a harvest encoder) that leaves room for 161 more below the next multiple of
`2 ^ 24`, and different meanings have numbers that differ modulo `2 ^ 24`. -/
theorem idClasses_iff (kind : EncoderKind) {self : ExpressionEncoder} {keys : List Str}
    (numbered : self.meaningDictionary.Numbered keys) (tree : CmmlToken) (info : Option (ExpressionInfo D)) :
    let nodes := (foreachSubexpression tree).takeWhile accepted
    IdClasses nodes (encode kind self ⟨false⟩ (.root tree) info).1.encodedFormula ↔
      (varNames (kindsOf nodes)).toFinset.card ≤ 31 ∧ (kindsOf nodes).count .anonymous ≤ 31 ∧
        (kindsOf nodes).count .range ≤ 32 ∧
        Separated (keysAfter kind keys (kindsOf nodes)) (meanings (kindsOf nodes)) := by
  intro nodes
  constructor
  · intro classes
    have bounds : Bounds kind keys (kindsOf nodes) := bounds_of_idClasses numbered classes
    rw [encode_assigned numbered info bounds] at classes
    refine ⟨?_, bounds.fewAnonymous, bounds.fewRanges, (idClasses_assigned bounds).mp classes⟩
    rw [← length_concatAll]
    exact bounds.fewNames
  · rintro ⟨fewNames, fewAnonymous, fewRanges, separated⟩
    have bounds : Bounds kind keys (kindsOf nodes) :=
      ⟨by rw [length_concatAll]; exact fewNames, fewAnonymous, fewRanges, fewKeys_of_separated numbered separated⟩
    rw [encode_assigned numbered info bounds]
    exact (idClasses_assigned bounds).mpr separated

/-- An element with a number of anonymous variables. -/
def anonymousTree (number : Nat) : CmmlToken :=
  .mk ['r'] [] .empty (List.replicate number (.mk qvarTag [] .empty []))

/-- One anonymous variable and a constant. -/
theorem idClasses_iff_small :
    let nodes := (foreachSubexpression (anonymousTree 1)).takeWhile accepted
    IdClasses nodes (encode (D := .whole) .harvest (.new empty) ⟨false⟩ (.root (anonymousTree 1)) none).1.encodedFormula := by
  intro nodes
  have visited : nodes = (preorder (anonymousTree 1) none []).takeWhile accepted := by
    rw [← foreachSubexpression_eq]
  refine (@idClasses_iff .whole .harvest (.new empty) [] numbered_empty (anonymousTree 1) none).mpr ?_
  show (varNames (kindsOf nodes)).toFinset.card ≤ 31 ∧ (kindsOf nodes).count .anonymous ≤ 31 ∧
    (kindsOf nodes).count .range ≤ 32 ∧ Separated (keysAfter .harvest [] (kindsOf nodes)) (meanings (kindsOf nodes))
  rw [visited]
  exact ⟨by decide, by decide, by decide, by unfold Separated; decide⟩

/-- The last of 32 anonymous variables gets the id 64, which is not one of an anonymous variable. -/
theorem encode_anonymousTree :
    ¬IdClasses ((foreachSubexpression (anonymousTree 32)).takeWhile accepted)
      (encode (D := .whole) .harvest (.new empty) ⟨false⟩ (.root (anonymousTree 32)) none).1.encodedFormula := by
  intro classes
  have few := (bounds_of_idClasses numbered_empty classes).fewAnonymous
  rw [foreachSubexpression_eq] at few
  exact absurd few (by decide)

end ExpressionEncoder

end MathWebSearch
