/-
**What the encoder computes** (`ExpressionEncoder::encode`).

The loop of `encode` goes through the tokens in pre-order and stops at the first constant with too many children
(`encodeLoop_eq`). For a tree without variables the rest is a matter of names: every token is encoded under a name,
its meaning or a new name for a `ci` (`constantName`), and the dictionary numbers the names.

* `foldl_constants` — the formula and the dictionary of a stretch of constants, from their names.
* `harvestCode`, `queryCode` — the formula as a word over names and arities, for dictionaries that leave room
  below `2 ^ 24`.
* `code_eq_iff` — two such words are equal if and only if the names and arities are.
* `Sharing` — two expressions encoded over one dictionary; `Sharing.codes` gives both formulas as words over the
  names of the dictionary at the end.
-/

import MathWebSearch.Index.ExpressionEncoder
import MathWebSearch.Index.MeaningDictionary

namespace MathWebSearch

open CmmlToken IdDictionary PrefixCode

namespace ExpressionEncoder

variable {D : Doubles}

/-! ### The loop -/

/-- Whether `encode` goes on behind a token: it returns at a constant with too many children. -/
def accepted (located : Located) : Bool :=
  located.token.isVar || located.token.isRange || decide (located.token.getArity ≤ encTokMaxArity)

/-- One round that goes on. -/
def encodeNode (kind : EncoderKind) (config : EncoderConfig) (round : Round D) (located : Located) : Round D :=
  (encodeToken kind config round located).getD round

theorem isSome_encodeToken (kind : EncoderKind) (config : EncoderConfig) (round : Round D) (located : Located) :
    (encodeToken kind config round located).isSome = accepted located := by
  unfold encodeToken accepted
  simp only []
  split_ifs with isVar anonymous isRange wide
  · rw [isVar]; rfl
  · rw [isVar]; rfl
  · rw [isRange, Bool.or_true]; rfl
  · rw [Bool.eq_false_iff.mpr isVar, Bool.eq_false_iff.mpr isRange, decide_eq_false (Nat.not_le.mpr wide)]; rfl
  all_goals rw [decide_eq_true (Nat.not_lt.mp wide), Bool.or_true]; rfl

theorem encodeToken_eq (kind : EncoderKind) (config : EncoderConfig) (round : Round D) (located : Located) :
    encodeToken kind config round located =
      if accepted located then some (encodeNode kind config round located) else none := by
  rw [← isSome_encodeToken kind config round located, encodeNode]
  cases encodeToken kind config round located <;> rfl

/-- **The loop of `encode`**: the tokens in front of the first that is not accepted. -/
theorem encodeLoop_eq (kind : EncoderKind) (config : EncoderConfig) (tokens : List Located) :
    ∀ round : Round D, encodeLoop kind config tokens round =
      ((tokens.takeWhile accepted).foldl (encodeNode kind config) round,
        if tokens.all accepted then ((tokens.takeWhile accepted).foldl (encodeNode kind config) round).rv else -1) := by
  induction tokens with
  | nil => intro round; rfl
  | cons located rest ih =>
    intro round
    rw [encodeLoop, encodeToken_eq]
    by_cases goesOn : accepted located = true
    · rw [if_pos goesOn, List.takeWhile_cons_of_pos goesOn, List.all_cons, goesOn, Bool.true_and]
      exact ih _
    · rw [if_neg goesOn, List.takeWhile_cons_of_neg goesOn, List.all_cons, Bool.eq_false_iff.mpr goesOn]
      rfl

/-- Where every token is accepted. -/
theorem encodeLoop_all (kind : EncoderKind) (config : EncoderConfig) {tokens : List Located}
    (all : ∀ located ∈ tokens, accepted located = true) (round : Round D) :
    encodeLoop kind config tokens round =
      (tokens.foldl (encodeNode kind config) round, (tokens.foldl (encodeNode kind config) round).rv) := by
  have whole : tokens.takeWhile accepted = tokens := List.takeWhile_eq_self_iff.mpr all
  rw [encodeLoop_eq, whole, if_pos (List.all_eq_true.mpr all)]

/-! ### Names of constants -/

/-- The name a constant is encoded under. -/
def constantName (config : EncoderConfig) (self : ExpressionEncoder) (located : Located) : ExpressionEncoder × Str :=
  if config.renameCi && located.token.getTag = ciTag then self.translateCi located
  else (self, located.token.getMeaning)

/-- The names of constants, one after the other. -/
def namesOf (config : EncoderConfig) : ExpressionEncoder → List Located → List Str
  | _, [] => []
  | self, located :: rest =>
    (constantName config self located).2 :: namesOf config (constantName config self located).1 rest

/-- The ids of names, one after the other. -/
def constantIds (kind : EncoderKind) : MeaningDictionary → List Str → MeaningDictionary × List Nat
  | dictionary, [] => (dictionary, [])
  | dictionary, name :: rest =>
    let first := getConstantEncoding kind (new dictionary) name
    let after := constantIds kind first.1.meaningDictionary rest
    (after.1, first.2 :: after.2)

/-- A constant with few enough children. -/
def Plain (located : Located) : Prop :=
  located.token.getType = .constant ∧ located.token.getArity ≤ encTokMaxArity

theorem encodeNode_plain (kind : EncoderKind) (config : EncoderConfig) (round : Round D) {located : Located}
    (plain : Plain located) :
    encodeNode kind config round located =
      let named := constantName config round.encoder located
      let coded := named.1.getConstantEncoding kind named.2
      { round with
        encoder := coded.1
        encodedFormula := round.encodedFormula ++ [encodedToken coded.2 located.token.getArity]
        rv := if coded.2 % 2 ^ 24 = keyNotFound then -1 else round.rv } := by
  have noVar : located.token.isVar = false := by rw [isVar, plain.1]; rfl
  have noRange : located.token.isRange = false := by rw [CmmlToken.isRange, plain.1]; rfl
  unfold encodeNode encodeToken
  simp only [noVar, noRange, Bool.false_eq_true, if_false, if_neg (Nat.not_lt.mpr plain.2), Option.getD_some]
  unfold constantName
  by_cases renamed : (config.renameCi && decide (located.token.getTag = ciTag)) = true
  · simp only [if_pos renamed]
    rfl
  · simp only [if_neg renamed]
    rfl

/-- The dictionary does not matter for the name of a constant. -/
theorem constantName_dictionary (config : EncoderConfig) (self : ExpressionEncoder) (dictionary : MeaningDictionary)
    (located : Located) :
    constantName config { self with meaningDictionary := dictionary } located =
      ({ (constantName config self located).1 with meaningDictionary := dictionary },
        (constantName config self located).2) := by
  unfold constantName translateCi
  split_ifs
  · rfl
  · simp only []
    cases self.ciTranslations.lookup located.token.getMeaning <;> rfl
  · rfl

theorem namesOf_dictionary (config : EncoderConfig) (dictionary : MeaningDictionary) (tokens : List Located) :
    ∀ self : ExpressionEncoder,
      namesOf config { self with meaningDictionary := dictionary } tokens = namesOf config self tokens := by
  induction tokens with
  | nil => intro self; rfl
  | cons located rest ih =>
    intro self
    rw [namesOf, namesOf, constantName_dictionary, ih]

/-- A name is looked up in the dictionary only. -/
theorem getConstantEncoding_eq (kind : EncoderKind) (self : ExpressionEncoder) (name : Str) :
    self.getConstantEncoding kind name =
      ({ self with meaningDictionary := ((new self.meaningDictionary).getConstantEncoding kind name).1.meaningDictionary },
        ((new self.meaningDictionary).getConstantEncoding kind name).2) := by
  cases kind <;> rfl

theorem meaningDictionary_constantName (config : EncoderConfig) (self : ExpressionEncoder) (located : Located) :
    (constantName config self located).1.meaningDictionary = self.meaningDictionary := by
  have same := constantName_dictionary config self self.meaningDictionary located
  rw [show ({ self with meaningDictionary := self.meaningDictionary } : ExpressionEncoder) = self from rfl] at same
  exact (congrArg (fun result => result.1.meaningDictionary) same)

/-- **A stretch of constants**: the formula, the dictionary and the return value come from the names. -/
theorem foldl_constants (kind : EncoderKind) (config : EncoderConfig) (tokens : List Located) :
    ∀ round : Round D, (∀ located ∈ tokens, Plain located) →
      (tokens.foldl (encodeNode kind config) round).encoder.meaningDictionary =
          (constantIds kind round.encoder.meaningDictionary (namesOf config round.encoder tokens)).1 ∧
        (tokens.foldl (encodeNode kind config) round).encodedFormula = round.encodedFormula ++
          List.zipWith encodedToken
            (constantIds kind round.encoder.meaningDictionary (namesOf config round.encoder tokens)).2
            (tokens.map fun located => located.token.getArity) ∧
        ((tokens.foldl (encodeNode kind config) round).rv = 0 ↔ round.rv = 0 ∧
          ∀ id ∈ (constantIds kind round.encoder.meaningDictionary (namesOf config round.encoder tokens)).2,
            id % 2 ^ 24 ≠ keyNotFound) := by
  induction tokens with
  | nil =>
    intro round _
    refine ⟨rfl, (List.append_nil _).symm, ?_⟩
    simp [namesOf, constantIds]
  | cons located rest ih =>
    intro round plain
    have here := encodeNode_plain kind config round (plain located List.mem_cons_self)
    simp only [getConstantEncoding_eq kind (constantName config round.encoder located).1,
      meaningDictionary_constantName] at here
    obtain ⟨dictionary, formula, rv⟩ := ih (encodeNode kind config round located)
      fun other member => plain other (List.mem_cons_of_mem _ member)
    rw [List.foldl_cons]
    rw [here] at dictionary formula rv ⊢
    simp only [namesOf_dictionary] at dictionary formula rv
    refine ⟨dictionary, ?_, ?_⟩
    · rw [formula, namesOf, constantIds]
      simp
    · rw [rv, namesOf, constantIds]
      simp only [List.mem_cons, forall_eq_or_imp]
      by_cases missing : ((new round.encoder.meaningDictionary).getConstantEncoding kind
          (constantName config round.encoder located).2).2 % 2 ^ 24 = keyNotFound
      · rw [if_pos missing]
        exact ⟨fun impossible => absurd impossible.1 (by decide), fun fine => absurd missing fine.2.1⟩
      · rw [if_neg missing]
        exact and_congr_right fun _ => ⟨fun later => ⟨missing, later⟩, fun all => all.2⟩

/-! ### Words over names -/

/-- The ids that a harvest encoder gives names are their numbers in the dictionary. -/
theorem constantIds_harvest (names : List Str) : ∀ dictionary : MeaningDictionary,
    constantIds .harvest dictionary names =
      ((putAll dictionary names).1, (putAll dictionary names).2.map (constantIdMin + ·)) := by
  induction names with
  | nil => intro dictionary; rfl
  | cons name rest ih =>
    intro dictionary
    rw [constantIds, putAll, List.map_cons]
    simp only [ih]
    rfl

/-- A query encoder leaves the dictionary as it is. -/
theorem constantIds_query (names : List Str) (dictionary : MeaningDictionary) :
    constantIds .query dictionary names = (dictionary, names.map fun name =>
      if dictionary.get name ≠ keyNotFound then constantIdMin + dictionary.get name else keyNotFound) := by
  induction names with
  | nil => rfl
  | cons name rest ih =>
    rw [constantIds]
    simp only [show ((new dictionary).getConstantEncoding .query name).1.meaningDictionary = dictionary from rfl, ih]
    rfl

/-- The token of a name, for a dictionary with the given keys. -/
def code (keys : List Str) (symbol : Str × Nat) : EncodedToken :=
  encodedToken (constantIdMin + numberOf keys symbol.1) symbol.2

/-- A dictionary with room for ids of 24 bits. -/
def Roomy (keys : List Str) : Prop := keys.length < 2 ^ 24 - 161

theorem Roomy.code_id {keys : List Str} (roomy : Roomy keys) {name : Str} (member : name ∈ keys) (arity : Nat) :
    (code keys (name, arity)).id = constantIdMin + numberOf keys name := by
  have inside := numberOf_le member
  unfold Roomy at roomy
  refine Nat.mod_eq_of_lt ?_
  show constantIdMin + numberOf keys name < 2 ^ 24
  unfold constantIdMin
  omega

/-- Different names or arities have different tokens. -/
theorem Roomy.code_injective {keys : List Str} (roomy : Roomy keys) {symbol symbol' : Str × Nat}
    (member : symbol.1 ∈ keys) (member' : symbol'.1 ∈ keys) (narrow : symbol.2 ≤ encTokMaxArity)
    (narrow' : symbol'.2 ≤ encTokMaxArity) (same : code keys symbol = code keys symbol') : symbol = symbol' := by
  have ids := congrArg EncodedToken.id same
  rw [roomy.code_id member, roomy.code_id member'] at ids
  have arities : symbol.2 % 2 ^ 8 = symbol'.2 % 2 ^ 8 := congrArg EncodedToken.arity same
  unfold encTokMaxArity at narrow narrow'
  refine Prod.ext (numberOf_inj member (by omega)) ?_
  omega

/-- Tokens made of numbers of names. -/
theorem zipWith_code (keys names : List Str) (arities : List Nat) :
    List.zipWith encodedToken ((names.map (numberOf keys)).map (constantIdMin + ·)) arities =
      (names.zip arities).map (code keys) := by
  induction names generalizing arities with
  | nil => rfl
  | cons name rest ih =>
    cases arities with
    | nil => rfl
    | cons arity arities =>
      simp only [List.map_cons, List.zipWith_cons_cons, List.zip_cons_cons, ih]
      rfl

/-- The names of the tokens that are encoded, and their numbers of children. -/
def namedSymbols (config : EncoderConfig) (self : ExpressionEncoder) (tokens : List Located) : List (Str × Nat) :=
  (namesOf config self tokens).zip (tokens.map fun located => located.token.getArity)

theorem ids_ne_keyNotFound {keys names : List Str} (roomy : Roomy keys) (known : ∀ name ∈ names, name ∈ keys) :
    ∀ id ∈ (names.map (numberOf keys)).map (constantIdMin + ·), id % 2 ^ 24 ≠ keyNotFound := by
  intro id among
  rw [List.map_map] at among
  obtain ⟨name, member, rfl⟩ := List.mem_map.mp among
  rw [show (((constantIdMin + ·) ∘ numberOf keys) name) % 2 ^ 24 = constantIdMin + numberOf keys name from
    roomy.code_id (known name member) 0]
  unfold constantIdMin keyNotFound valueIdStart
  omega

section Constants

variable {config : EncoderConfig} {self : ExpressionEncoder} {keys : List Str} {tokens : List Located}

/-- The constants in front of the first that is not accepted. -/
theorem plain_takeWhile (constants : ∀ located ∈ tokens, located.token.getType = .constant) :
    ∀ located ∈ tokens.takeWhile accepted, Plain located := by
  intro located among
  have constant := constants located (List.takeWhile_subset _ among)
  have passed : accepted located = true := List.mem_takeWhile_imp among
  rw [accepted, isVar, CmmlToken.isRange, constant] at passed
  exact ⟨constant, by simpa using passed⟩

/-- **A harvest encoder on constants**: the word over the names and arities, in the dictionary with all names; it
returns 0 unless a token has too many children. -/
theorem harvestCode (numbered : self.meaningDictionary.Numbered keys)
    (constants : ∀ located ∈ tokens, located.token.getType = .constant)
    (roomy : Roomy (concatAll keys (namesOf config self (tokens.takeWhile accepted))))
    (info : Option (ExpressionInfo D)) :
    (encodeLoop .harvest config tokens (self.startRound info)).1.encoder.meaningDictionary.Numbered
        (concatAll keys (namesOf config self (tokens.takeWhile accepted))) ∧
      (encodeLoop .harvest config tokens (self.startRound info)).1.encodedFormula =
        (namedSymbols config self (tokens.takeWhile accepted)).map
          (code (concatAll keys (namesOf config self (tokens.takeWhile accepted)))) ∧
      (encodeLoop .harvest config tokens (self.startRound info)).2 = if tokens.all accepted then 0 else -1 := by
  obtain ⟨dictionary, formula, rv⟩ := foldl_constants .harvest config (tokens.takeWhile accepted)
    (self.startRound info) (plain_takeWhile constants)
  have small : (concatAll keys (namesOf config self (tokens.takeWhile accepted))).length < 2 ^ 32 - 1 := by
    unfold Roomy at roomy
    omega
  have after := (putAll_spec (namesOf config self (tokens.takeWhile accepted)) numbered small).1
  rw [show (self.startRound info).encoder = self from rfl, constantIds_harvest] at dictionary formula rv
  simp only [ids_putAll numbered _ small] at formula rv
  rw [encodeLoop_eq]
  refine ⟨by rw [dictionary]; exact after, ?_, ?_⟩
  · rw [formula, zipWith_code]
    rfl
  · have fine := rv.mpr ⟨rfl, ids_ne_keyNotFound roomy fun name member => mem_concatAll _ |>.mpr (.inr member)⟩
    rw [fine]

/-- **A query encoder on constants** whose names are all known. -/
theorem queryCode (numbered : self.meaningDictionary.Numbered keys)
    (constants : ∀ located ∈ tokens, located.token.getType = .constant) (roomy : Roomy keys)
    (known : ∀ name ∈ namesOf config self (tokens.takeWhile accepted), name ∈ keys)
    (info : Option (ExpressionInfo D)) :
    (encodeLoop .query config tokens (self.startRound info)).1.encodedFormula =
        (namedSymbols config self (tokens.takeWhile accepted)).map (code keys) ∧
      (encodeLoop .query config tokens (self.startRound info)).2 =
        if tokens.all accepted then 0 else -1 := by
  obtain ⟨_, formula, rv⟩ := foldl_constants .query config (tokens.takeWhile accepted) (self.startRound info)
    (plain_takeWhile constants)
  rw [show (self.startRound info).encoder = self from rfl, constantIds_query] at formula rv
  have ids : ((namesOf config self (tokens.takeWhile accepted)).map fun name =>
      if self.meaningDictionary.get name ≠ keyNotFound then constantIdMin + self.meaningDictionary.get name
      else keyNotFound) =
      ((namesOf config self (tokens.takeWhile accepted)).map (numberOf keys)).map (constantIdMin + ·) := by
    rw [List.map_map]
    refine List.map_congr_left fun name member => ?_
    have found : self.meaningDictionary.get name ≠ keyNotFound :=
      fun missing => (get_eq_keyNotFound_iff numbered).mp missing (known name member)
    rw [if_pos found, get_eq_numberOf numbered (known name member)]
    rfl
  simp only [ids] at formula rv
  rw [encodeLoop_eq]
  refine ⟨?_, ?_⟩
  · rw [formula, zipWith_code]
    rfl
  · rw [rv.mpr ⟨rfl, ids_ne_keyNotFound roomy known⟩]

end Constants

/-- A dictionary that grows keeps the numbers it has given. -/
theorem code_concatAll {keys : List Str} (puts : List Str) {symbol : Str × Nat} (member : symbol.1 ∈ keys) :
    code (concatAll keys puts) symbol = code keys symbol := by
  rw [code, code, numberOf_concatAll puts member]

/-- **Words over names are equal if and only if names and arities are.** -/
theorem code_eq_iff {keys : List Str} (roomy : Roomy keys) {word word' : List (Str × Nat)}
    (known : ∀ symbol ∈ word, symbol.1 ∈ keys ∧ symbol.2 ≤ encTokMaxArity)
    (known' : ∀ symbol ∈ word', symbol.1 ∈ keys ∧ symbol.2 ≤ encTokMaxArity) :
    word.map (code keys) = word'.map (code keys) ↔ word = word' := by
  refine ⟨fun same => ?_, fun same => by rw [same]⟩
  induction word generalizing word' with
  | nil => exact (List.map_eq_nil_iff.mp same.symm).symm
  | cons symbol rest ih =>
    obtain ⟨symbol', rest', rfl, same₁, same₂⟩ := List.map_eq_cons_iff.mp same.symm
    rw [ih (fun other member => known other (List.mem_cons_of_mem _ member))
      (fun other member => known' other (List.mem_cons_of_mem _ member)) same₂.symm,
      roomy.code_injective (known _ List.mem_cons_self).1 (known' _ List.mem_cons_self).1
        (known _ List.mem_cons_self).2 (known' _ List.mem_cons_self).2 same₁.symm]

/-! ### Two expressions over one dictionary -/

/-- Two harvest encoders that use one dictionary one after the other; other keys are put in before, between and after,
and `last` is the dictionary at the end. -/
structure Sharing (D : Doubles) (config : EncoderConfig) (first second : ExpressionEncoder)
    (expression expression' : Located) (last : MeaningDictionary) : Prop where
  before : ∃ puts, first.meaningDictionary = (putAll empty puts).1
  between : ∃ puts, second.meaningDictionary =
    (putAll (encode (D := D) .harvest first config expression none).1.encoder.meaningDictionary puts).1
  behind : ∃ puts, last =
    (putAll (encode (D := D) .harvest second config expression' none).1.encoder.meaningDictionary puts).1

/-- The dictionary after a harvest encoder has seen constants. -/
theorem meaningDictionary_encode {config : EncoderConfig} {self : ExpressionEncoder} {expression : Located}
    (constants : ∀ located ∈ dfs [expression], located.token.getType = .constant) :
    (encode (D := D) .harvest self config expression none).1.encoder.meaningDictionary =
      (putAll self.meaningDictionary (namesOf config self ((dfs [expression]).takeWhile accepted))).1 := by
  obtain ⟨dictionary, -, -⟩ := foldl_constants (D := D) .harvest config ((dfs [expression]).takeWhile accepted)
    (self.startRound none) (plain_takeWhile constants)
  rw [encode, encodeLoop_eq]
  rw [show (self.startRound (D := D) none).encoder = self from rfl, constantIds_harvest] at dictionary
  exact dictionary

/-- What a harvest encoder computes, in a dictionary that may have grown since. -/
structure Coded (D : Doubles) (keys : List Str) (config : EncoderConfig) (encoder : ExpressionEncoder)
    (expression : Located) : Prop where
  known : ∀ name ∈ namesOf config encoder ((dfs [expression]).takeWhile accepted), name ∈ keys
  formula : (encode (D := D) .harvest encoder config expression none).1.encodedFormula =
    (namedSymbols config encoder ((dfs [expression]).takeWhile accepted)).map (code keys)
  rv : (encode (D := D) .harvest encoder config expression none).2 =
    if (dfs [expression]).all accepted then 0 else -1

theorem Coded.returns {keys : List Str} {config : EncoderConfig} {encoder : ExpressionEncoder} {expression : Located}
    (coded : Coded D keys config encoder expression) :
    (encode (D := D) .harvest encoder config expression none).2 = 0 ↔ (dfs [expression]).all accepted = true := by
  rw [coded.rv]
  split_ifs with all
  · exact ⟨fun _ => all, fun _ => rfl⟩
  · exact ⟨fun impossible => absurd impossible (by decide), fun all' => absurd all' all⟩

/-- A query encoder that uses the same names over the later dictionary. -/
theorem Coded.query {keys : List Str} {config : EncoderConfig} {encoder query : ExpressionEncoder}
    {expression : Located} (coded : Coded D keys config encoder expression)
    (numbered : query.meaningDictionary.Numbered keys) (roomy : Roomy keys)
    (constants : ∀ located ∈ dfs [expression], located.token.getType = .constant)
    (names : namesOf config query ((dfs [expression]).takeWhile accepted) =
      namesOf config encoder ((dfs [expression]).takeWhile accepted)) (info : Option (ExpressionInfo D)) :
    (encode .query query config expression info).1.encodedFormula =
        (encode (D := D) .harvest encoder config expression none).1.encodedFormula ∧
      (encode .query query config expression info).2 =
        (encode (D := D) .harvest encoder config expression none).2 := by
  obtain ⟨formula, rv⟩ := queryCode numbered constants roomy (names ▸ coded.known) info
  rw [coded.formula, coded.rv]
  refine ⟨formula.trans ?_, rv⟩
  rw [namedSymbols, namedSymbols, names]

theorem Roomy.of_concatAll {keys puts : List Str} (roomy : Roomy (concatAll keys puts)) : Roomy keys :=
  lt_of_le_of_lt (length_le_concatAll puts keys) roomy

theorem coded (config : EncoderConfig) {self : ExpressionEncoder} {expression : Located} {keys : List Str}
    (numbered : self.meaningDictionary.Numbered keys)
    (constants : ∀ located ∈ dfs [expression], located.token.getType = .constant) (puts : List Str)
    (roomy : Roomy
      (concatAll (concatAll keys (namesOf config self ((dfs [expression]).takeWhile accepted))) puts)) :
    Coded D (concatAll (concatAll keys (namesOf config self ((dfs [expression]).takeWhile accepted))) puts) config self
      expression := by
  obtain ⟨-, formula, rv⟩ := harvestCode (D := D) numbered constants roomy.of_concatAll none
  have known : ∀ name ∈ namesOf config self ((dfs [expression]).takeWhile accepted),
      name ∈ concatAll keys (namesOf config self ((dfs [expression]).takeWhile accepted)) :=
    fun name member => (mem_concatAll _).mpr (Or.inr member)
  refine ⟨fun name member => (mem_concatAll _).mpr (Or.inl (known name member)), ?_, rv⟩
  rw [encode, formula]
  refine List.map_congr_left fun symbol member => (code_concatAll puts (known symbol.1 ?_)).symm
  exact (List.of_mem_zip member).1

/-- An expression that is encoded by a harvest encoder: the dictionary comes from `put` calls, and `last` is what it has
become since. -/
structure Putting (D : Doubles) (config : EncoderConfig) (encoder : ExpressionEncoder) (expression : Located)
    (last : MeaningDictionary) : Prop where
  before : ∃ puts, encoder.meaningDictionary = (putAll empty puts).1
  behind : ∃ puts, last =
    (putAll (encode (D := D) .harvest encoder config expression none).1.encoder.meaningDictionary puts).1

/-- **The formula** is a word over the names of the later dictionary. -/
theorem Putting.codes {config : EncoderConfig} {encoder : ExpressionEncoder} {expression : Located}
    {last : MeaningDictionary} (putting : Putting D config encoder expression last)
    (constants : ∀ located ∈ dfs [expression], located.token.getType = .constant)
    (few : last.map.length < 2 ^ 24 - 161) :
    Roomy (last.map.map Prod.fst) ∧ last.Numbered (last.map.map Prod.fst) ∧
      Coded D (last.map.map Prod.fst) config encoder expression := by
  obtain ⟨⟨puts, start⟩, ⟨puts', finish⟩⟩ := putting
  rw [meaningDictionary_encode constants] at finish
  generalize names : namesOf config encoder ((dfs [expression]).takeWhile accepted) = namesOf at finish
  -- the dictionary at the end comes from one sequence of `put` calls
  have whole : last = (putAll empty (puts ++ namesOf ++ puts')).1 := by
    rw [finish, start]
    simp only [putAll_append]
  have length := few
  rw [whole] at length
  obtain ⟨numbered, same⟩ := numbered_of_length (lt_trans length (by decide))
  rw [← whole] at numbered
  have keys : last.map.map Prod.fst = concatAll [] (puts ++ namesOf ++ puts') := by
    rw [numbered.map_eq, List.map_map]
    exact List.zipIdx_map_fst 0 _
  rw [keys]
  have roomy : Roomy (concatAll [] (puts ++ namesOf ++ puts')) := by
    rw [Roomy, same, ← whole]
    exact few
  have early := roomy
  simp only [concatAll_append] at early
  have small : (concatAll [] puts).length < 2 ^ 32 - 1 := lt_trans early.of_concatAll.of_concatAll (by decide)
  have begun : encoder.meaningDictionary.Numbered (concatAll [] puts) := start ▸ (putAll_spec puts numbered_empty small).1
  refine ⟨roomy, numbered, ?_⟩
  have result := coded (D := D) config begun constants puts'
  rw [names] at result
  simp only [concatAll_append] at result ⊢
  exact result early

/-- **Two expressions over one dictionary**: both formulas are words over the names of the dictionary at the end. -/
theorem Sharing.codes {config : EncoderConfig} {first second : ExpressionEncoder} {expression expression' : Located}
    {last : MeaningDictionary} (sharing : Sharing D config first second expression expression' last)
    (constants : ∀ located ∈ dfs [expression], located.token.getType = .constant)
    (constants' : ∀ located ∈ dfs [expression'], located.token.getType = .constant)
    (few : last.map.length < 2 ^ 24 - 161) :
    ∃ keys, Roomy keys ∧ last.Numbered keys ∧ Coded D keys config first expression ∧
      Coded D keys config second expression' := by
  obtain ⟨⟨puts, start⟩, ⟨puts', middle⟩, ⟨puts'', finish⟩⟩ := sharing
  have behind : last = (putAll (encode (D := D) .harvest first config expression none).1.encoder.meaningDictionary
      (puts' ++ namesOf config second ((dfs [expression']).takeWhile accepted) ++ puts'')).1 := by
    rw [finish, meaningDictionary_encode constants', middle]
    simp only [putAll_append]
  have before : second.meaningDictionary =
      (putAll empty (puts ++ namesOf config first ((dfs [expression]).takeWhile accepted) ++ puts')).1 := by
    rw [middle, meaningDictionary_encode constants, start]
    simp only [putAll_append]
  have one : Putting D config first expression last := ⟨⟨_, start⟩, ⟨_, behind⟩⟩
  have two : Putting D config second expression' last := ⟨⟨_, before⟩, ⟨_, finish⟩⟩
  obtain ⟨roomy, numbered, coded⟩ := one.codes constants few
  exact ⟨_, roomy, numbered, coded, (two.codes constants' few).2.2⟩

end ExpressionEncoder

end MathWebSearch
