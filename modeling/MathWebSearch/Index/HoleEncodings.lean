/-
**Variables and ranges in encodings** (`ExpressionEncoder::encode`).

With a small dictionary the tokens of constants stand for themselves, and only variables and ranges do not. The token
of a variable or range comes first in the encoding of the subexpression it begins.

* `encode_rooted` — the tokens of a tree of constants are ids of the dictionary.
* `exists_hole` — **a token that does not stand for itself** begins another encoding of the same expression.
-/

import MathWebSearch.Index.StoredMeanings
import MathWebSearch.Query.SearchSpec

namespace MathWebSearch

open CmmlToken IdDictionary PrefixCode ExpressionEncoder

namespace ExpressionEncoder

variable {D : Doubles}

/-! ### Trees of constants -/

/-- A dictionary made by `put` calls, and a formula whose ids were given out by them. -/
structure Rooted (puts : List Str) (round : Round D) : Prop where
  dictionary : round.encoder.meaningDictionary = (putAll empty puts).1
  stems : ∀ token ∈ round.encodedFormula, Stems puts token

/-- One constant. -/
theorem Rooted.encodeNode {puts : List Str} {round : Round D} (rooted : Rooted puts round) (config : EncoderConfig)
    {located : Located} (plain : Plain located) :
    ∃ more, Rooted (puts ++ more) (encodeNode .harvest config round located) := by
  rw [encodeNode_plain .harvest config round plain]
  have same := meaningDictionary_constantName config round.encoder located
  generalize constantName config round.encoder located = named at same
  refine ⟨[named.2], ?_, fun token member => ?_⟩
  · show (named.1.meaningDictionary.put named.2).1 = _
    rw [same, rooted.dictionary, putAll_append]
    rfl
  · rcases List.mem_append.mp member with old | new
    · exact (rooted.stems token old).append _
    · rw [List.mem_singleton.mp new]
      refine ⟨puts, named.2, [], rfl, ?_⟩
      rw [← rooted.dictionary, ← same]
      rfl

theorem Rooted.foldl (config : EncoderConfig) (tokens : List Located) : ∀ {puts : List Str} {round : Round D},
    Rooted puts round → (∀ located ∈ tokens, Plain located) →
    ∃ more, Rooted (puts ++ more) (tokens.foldl (ExpressionEncoder.encodeNode .harvest config) round) := by
  induction tokens with
  | nil =>
    intro puts round rooted _
    exact ⟨[], by rw [List.append_nil]; exact rooted⟩
  | cons located rest ih =>
    intro puts round rooted all
    obtain ⟨more, next⟩ := rooted.encodeNode config (all located List.mem_cons_self)
    obtain ⟨more', last⟩ := ih next fun other member => all other (List.mem_cons_of_mem _ member)
    exact ⟨more ++ more', by rw [← List.append_assoc]; exact last⟩

/-- **The tokens of a tree of constants** are ids of the dictionary. -/
theorem encode_rooted {puts : List Str} {self : ExpressionEncoder}
    (dictionary : self.meaningDictionary = (putAll empty puts).1) (config : EncoderConfig) {expression : Located}
    (constants : ∀ located ∈ dfs [expression], located.token.getType = .constant) (info : Option (ExpressionInfo D)) :
    ∃ more, Rooted (puts ++ more) (encode .harvest self config expression info).1 := by
  rw [encode, encodeLoop_eq]
  have start : Rooted puts (self.startRound info) := ⟨dictionary, fun token member => absurd member List.not_mem_nil⟩
  exact start.foldl config _ (plain_takeWhile constants)

/-- With few entries an id of the dictionary stands for itself. -/
theorem Stems.role_eq {puts : List Str} {token : EncodedToken} (stems : Stems puts token)
    (few : puts.toFinset.card < 2 ^ 24 - 161) : token.role = .constant := by
  obtain ⟨front, meaning, back, rfl, id⟩ := stems
  have split : front ++ meaning :: back = (front ++ [meaning]) ++ back := by
    rw [List.append_assoc, List.singleton_append]
  rw [split] at few
  have fewer := lt_of_le_of_lt (card_le_append (front ++ [meaning]) back) few
  rw [← length_concatAll, concatAll_append] at fewer
  have less : (concatAll [] front).length < 2 ^ 32 - 1 :=
    lt_of_le_of_lt (length_le_concatAll [meaning] (concatAll [] front)) (lt_trans fewer (by decide))
  obtain ⟨-, place⟩ := @put_spec Str _ (putAll empty front).1 (concatAll [] front)
    (putAll_spec front numbered_empty less).1 meaning (lt_trans fewer (by decide))
  have bound := numberOf_le (mem_concatNew.mpr (Or.inr rfl) : meaning ∈ concatNew (concatAll [] front) meaning)
  have fewer : (concatNew (concatAll [] front) meaning).length < 2 ^ 24 - 161 := fewer
  rw [place, ← numberOf, constantIdMin, Nat.mod_eq_of_lt (by omega)] at id
  have noVar : token.isVar = false := by
    rw [EncodedToken.isVar, id, varIdMax]
    exact decide_eq_false (by omega)
  have noRange : token.isRange = false := by
    rw [EncodedToken.isRange, id, rangeIdMin, rangeIdMax, Bool.and_eq_false_iff]
    exact Or.inr (decide_eq_false (by omega))
  unfold EncodedToken.role
  rw [noVar, noRange]
  rfl

/-! ### The first token -/

/-- A round adds to the formula. -/
theorem encodeNode_grows (kind : EncoderKind) (config : EncoderConfig) (round : Round D) (located : Located) :
    ∃ more, (encodeNode kind config round located).encodedFormula = round.encodedFormula ++ more := by
  unfold encodeNode encodeToken
  dsimp only
  split
  · split
    · exact ⟨_, rfl⟩
    · exact ⟨_, rfl⟩
  · split
    · exact ⟨_, rfl⟩
    · split
      · exact ⟨[], (List.append_nil _).symm⟩
      · exact ⟨_, rfl⟩

theorem foldl_encodeNode_grows (kind : EncoderKind) (config : EncoderConfig) (tokens : List Located) :
    ∀ round : Round D, ∃ more,
      (tokens.foldl (encodeNode kind config) round).encodedFormula = round.encodedFormula ++ more := by
  induction tokens with
  | nil => exact fun round => ⟨[], (List.append_nil _).symm⟩
  | cons located rest ih =>
    intro round
    obtain ⟨here, grown⟩ := encodeNode_grows kind config round located
    obtain ⟨later, more⟩ := ih (encodeNode kind config round located)
    exact ⟨here ++ later, by rw [List.foldl_cons, more, grown, List.append_assoc]⟩

/-- The first variable or range of a formula. -/
theorem encodeNode_hole (config : EncoderConfig) (self : ExpressionEncoder) (info : Option (ExpressionInfo D))
    {located : Located} (hole : located.token.getType ≠ .constant) :
    ∃ token : EncodedToken, (encodeNode .harvest config (self.startRound info) located).encodedFormula = [token] ∧
      token.role ≠ .constant ∧ token.arity = 1 := by
  unfold encodeNode encodeToken
  cases type : located.token.getType with
  | constant => exact absurd type hole
  | var =>
    have isVar : located.token.isVar = true := by rw [CmmlToken.isVar, type]; rfl
    simp only [isVar, if_true]
    split
    · refine ⟨_, rfl, ?_, rfl⟩
      show (encodedToken (getAnonVarOffset + 0) 1).role ≠ .constant
      decide
    · refine ⟨_, rfl, ?_, rfl⟩
      show (encodedToken (getNamedVarOffset + 1) 1).role ≠ .constant
      decide
  | range =>
    have noVar : located.token.isVar = false := by rw [CmmlToken.isVar, type]; rfl
    have isRange : located.token.isRange = true := by rw [CmmlToken.isRange, type]; rfl
    simp only [noVar, Bool.false_eq_true, if_false, isRange, if_true]
    refine ⟨_, rfl, ?_, rfl⟩
    show (encodedToken rangeIdMin 1).role ≠ .constant
    decide

/-- What an encoding that is accepted accepts. -/
theorem accepted_of_encode {kind : EncoderKind} {self : ExpressionEncoder} {config : EncoderConfig} {expression : Located}
    {info : Option (ExpressionInfo D)} (ok : (encode kind self config expression info).2 = 0) :
    ∀ located ∈ dfs [expression], accepted located = true := by
  rw [encode, encodeLoop_eq] at ok
  refine List.all_eq_true.mp (Bool.not_eq_false _ ▸ fun some => ?_)
  simp only [some] at ok
  cases ok

/-- **The encoding of a variable or range** begins with it. -/
theorem encode_hole {self : ExpressionEncoder} {config : EncoderConfig} {expression : Located}
    {info : Option (ExpressionInfo D)} (ok : (encode .harvest self config expression info).2 = 0)
    (hole : expression.token.getType ≠ .constant) :
    ∃ token rest, (encode .harvest self config expression info).1.encodedFormula = token :: rest ∧
      token.role ≠ .constant ∧ token.arity = 1 := by
  have all := accepted_of_encode ok
  have first : ∃ others, dfs [expression] = expression :: others := by
    rw [dfs_eq, List.flatMap_singleton, preorder_eq]
    exact ⟨_, rfl⟩
  obtain ⟨others, first⟩ := first
  obtain ⟨token, here, role, arity⟩ := encodeNode_hole config self info hole
  obtain ⟨rest, grown⟩ := foldl_encodeNode_grows .harvest config others (encodeNode .harvest config (self.startRound info) expression)
  refine ⟨token, rest, ?_, role, arity⟩
  rw [encode, encodeLoop_all .harvest config all, first, List.foldl_cons, grown, here, List.singleton_append]

end ExpressionEncoder

namespace IndexBuilder

/-! ### The encodings of an expression -/

/-- The encodings of trees of constants. -/
theorem encodingsFrom_rooted (config : EncoderConfig) (tokens : List Located) : ∀ {puts : List Str}
    {encoder : ExpressionEncoder}, encoder.meaningDictionary = (putAll empty puts).1 →
    ∃ more, (encoderAfter config encoder tokens).meaningDictionary = (putAll empty (puts ++ more)).1 ∧
      ((puts ++ more).toFinset.card < 2 ^ 24 - 161 → ∀ entry ∈ encodingsFrom config encoder tokens,
        (∀ located ∈ dfs [entry.1], located.token.getType = .constant) → ∀ token ∈ entry.2, token.role = .constant) := by
  induction tokens with
  | nil =>
    intro puts encoder made
    exact ⟨[], by rw [List.append_nil]; exact made, fun _ entry member => absurd member List.not_mem_nil⟩
  | cons token rest ih =>
    intro puts encoder made
    -- the puts of the first subexpression; its tokens are ids of the dictionary if it has constants only
    have first : ∃ more, (encodeSubexpression config encoder token).1.meaningDictionary = (putAll empty (puts ++ more)).1 ∧
        ((∀ located ∈ dfs [token], located.token.getType = .constant) →
          ∀ other ∈ (encodeSubexpression config encoder token).2.1, Stems (puts ++ more) other) := by
      by_cases constants : ∀ located ∈ dfs [token], located.token.getType = .constant
      · obtain ⟨more, rooted⟩ := encode_rooted (D := .whole) made config constants none
        exact ⟨more, rooted.dictionary, fun _ => rooted.stems⟩
      · obtain ⟨more, after, -⟩ := encode_knowing (D := .whole) made config token none
        exact ⟨more, after, fun all => absurd all constants⟩
    obtain ⟨more, made', stems⟩ := first
    obtain ⟨more', after, later⟩ := ih made'
    rw [List.append_assoc] at after later
    refine ⟨more ++ more', after, fun few entry member constants other inside => ?_⟩
    have here : entry = (token, (encodeSubexpression config encoder token).2.1) → other.role = .constant := by
      rintro rfl
      refine (stems constants other inside).role_eq (lt_of_le_of_lt ?_ few)
      rw [← List.append_assoc]
      exact card_le_append _ _
    rw [encodingsFrom] at member
    split at member
    · rcases List.mem_cons.mp member with same | member
      · exact here same
      · exact later few entry member constants other inside
    · exact later few entry member constants other inside

/-- **A token that does not stand for itself** in an encoding of an expression: another encoding of the expression
begins with one. -/
theorem exists_hole {config : EncoderConfig} {dictionary : MeaningDictionary} {puts : List Str}
    (made : dictionary = (putAll empty puts).1) {tree : CmmlToken}
    (few : (dictionaryAfter config dictionary tree).map.length < 2 ^ 24 - 161) {entry : Located × EncodedFormula}
    (member : entry ∈ encodings config dictionary tree) {token : EncodedToken} (inside : token ∈ entry.2)
    (hole : token.role ≠ .constant) :
    ∃ other ∈ encodings config dictionary tree, ∃ first rest, other.2 = first :: rest ∧ first.role ≠ .constant ∧
      first.arity = 1 := by
  have counted : ∀ {more : List Str}, dictionaryAfter config dictionary tree = (putAll empty (puts ++ more)).1 →
      (puts ++ more).toFinset.card < 2 ^ 24 - 161 := by
    intro more after
    rw [after] at few
    obtain ⟨-, length⟩ := numbered_of_length (lt_trans few (by decide))
    rw [← length_concatAll, length]
    exact few
  obtain ⟨more, after, constants⟩ :=
    @encodingsFrom_rooted config (foreachSubexpression tree) puts (.new dictionary) made
  obtain ⟨more', after', found⟩ :=
    @encodingsFrom_knowing config (foreachSubexpression tree) puts (.new dictionary) made
  -- the expression has a variable or a range
  have some : ∃ located ∈ dfs [entry.1], located.token.getType ≠ .constant := by
    by_contra none
    push Not at none
    exact hole (constants (counted after) entry member none token inside)
  obtain ⟨located, below, notConstant⟩ := some
  obtain ⟨visited, encoder, source⟩ := mem_encodingsFrom _ member
  have all := accepted_of_encode (D := .whole) (congrArg Prod.snd source)
  have listed : located ∈ foreachSubexpression tree := by
    rw [foreachSubexpression] at visited ⊢
    exact dfs_trans tree visited below
  -- which is encoded, too
  obtain ⟨other, among, rfl⟩ := found (counted after') located listed fun node inner => all node (dfs_trans entry.1.token below inner)
  obtain ⟨-, encoder', source'⟩ := mem_encodingsFrom _ among
  obtain ⟨first, rest, formula, role, arity⟩ :=
    encode_hole (D := .whole) (congrArg Prod.snd source') notConstant
  exact ⟨other, among, first, rest, (congrArg Prod.fst source').symm.trans formula, role, arity⟩

end IndexBuilder

end MathWebSearch
