/-
**The meanings in the dictionary** (`ExpressionEncoder::encode`, `_getCiMeaning`, `CmmlToken::getMeaning`).

A harvest encoder puts a meaning into the dictionary for every constant it encodes: that of the token, or with
`renameCi` a new name for some `ci` elements. The analytics and the schema engine split such a meaning at its first `#`.

* `meaningsOf` — the constants encoded in a stretch of tokens, each with the meaning it is put under.
* `storedMeanings` — all of them over a run of the indexer; `dictionaryAfterAll_storedMeanings` says that the dictionary
  is made by just these `put` calls.
* `storedMeanings_iff` — all of them come apart into the tags and the texts exactly when no tag has a `#` and no `ci` is
  renamed.
-/

import MathWebSearch.Index.CiRenaming
import MathWebSearch.Index.CompleteEncodings

namespace MathWebSearch

open CmmlToken IdDictionary ExpressionEncoder

namespace ExpressionEncoder

variable {D : Doubles}

/-! ### One call of `encode` -/

/-- **The constants among tokens, with the meanings they are put under.** -/
def meaningsOf (config : EncoderConfig) : ExpressionEncoder → List Located → List (Located × Str)
  | _, [] => []
  | self, located :: rest =>
    if located.token.getType = .constant then
      (located, (constantName config self located).2) :: meaningsOf config (constantName config self located).1 rest
    else meaningsOf config self rest

/-- The dictionary does not matter for the names. -/
theorem meaningsOf_dictionary (config : EncoderConfig) (dictionary : MeaningDictionary) (tokens : List Located) :
    ∀ self : ExpressionEncoder,
      meaningsOf config { self with meaningDictionary := dictionary } tokens = meaningsOf config self tokens := by
  induction tokens with
  | nil => intro self; rfl
  | cons located rest ih =>
    intro self
    rw [meaningsOf, meaningsOf, constantName_dictionary, ih, ih]

/-- The new names in the table have no `#`. -/
def PlainNames (self : ExpressionEncoder) : Prop := ∀ entry ∈ self.ciTranslations, '#' ∉ entry.2

theorem plain_ciName (number : Nat) : '#' ∉ ciName number := by
  intro member
  rcases List.mem_cons.mp member with same | member
  · exact absurd same (by decide)
  · exact absurd (Nat.isDigit_of_mem_toDigits (by decide) (by decide) member) (by decide)

theorem plainNames_new (dictionary : MeaningDictionary) : PlainNames (.new dictionary) := fun _ member => by cases member

/-- A `ci` that is renamed. -/
def Renamed (config : EncoderConfig) (located : Located) : Prop := config.renameCi = true ∧ Renameable located

/-- **The name of a constant**: a new one without `#`, or the meaning of the token. -/
theorem constantName_split {self : ExpressionEncoder} (plain : PlainNames self) (config : EncoderConfig)
    (located : Located) : PlainNames (constantName config self located).1 ∧
      (Renamed config located → '#' ∉ (constantName config self located).2) ∧
      (¬ Renamed config located → (constantName config self located).2 = located.token.getMeaning) := by
  by_cases renames : (config.renameCi && decide (located.token.getTag = ciTag)) = true
  · obtain ⟨on, isCi⟩ := Bool.and_eq_true_iff.mp renames
    have isCi := of_decide_eq_true isCi
    rw [constantName, if_pos renames, translateCi]
    simp only []
    cases keeps : keepsCi located with
    | true =>
      have kept : ¬ Renamed config located := fun renamed => (keepsCi_iff isCi).mp keeps renamed.2
      exact ⟨plain, fun renamed => absurd renamed kept, fun _ => rfl⟩
    | false =>
      have renamed : Renamed config located :=
        ⟨on, by by_contra other; rw [(keepsCi_iff isCi).mpr other] at keeps; cases keeps⟩
      cases found : self.ciTranslations.lookup located.token.getMeaning with
      | some translated =>
        obtain ⟨front, back, table, -⟩ := List.lookup_eq_some_iff.mp found
        have member : (located.token.getMeaning, translated) ∈ self.ciTranslations := by rw [table]; simp
        exact ⟨plain, fun _ => plain _ member, fun other => absurd renamed other⟩
      | none =>
        refine ⟨fun entry member => ?_, fun _ => plain_ciName _, fun other => absurd renamed other⟩
        rcases List.mem_append.mp member with old | new
        · exact plain entry old
        · rw [List.mem_singleton.mp new]
          exact plain_ciName _
  · have kept : ¬ Renamed config located := by
      rintro ⟨on, isCi, -⟩
      rw [on, decide_eq_true isCi] at renames
      exact renames rfl
    rw [constantName, if_neg renames]
    exact ⟨plain, fun renamed => absurd renamed kept, fun _ => rfl⟩

/-- What is put for the constants among tokens. -/
theorem mem_meaningsOf {config : EncoderConfig} (tokens : List Located) : ∀ {self : ExpressionEncoder}, PlainNames self →
    ∀ entry ∈ meaningsOf config self tokens, entry.1 ∈ tokens ∧ entry.1.token.getType = .constant ∧
      (Renamed config entry.1 → '#' ∉ entry.2) ∧ (¬ Renamed config entry.1 → entry.2 = entry.1.token.getMeaning) := by
  induction tokens with
  | nil => intro self _ entry member; cases member
  | cons located rest ih =>
    intro self plain entry member
    obtain ⟨plain', renamed, kept⟩ := constantName_split plain config located
    rw [meaningsOf] at member
    split at member
    · rcases List.mem_cons.mp member with rfl | member
      · exact ⟨List.mem_cons_self, ‹_›, renamed, kept⟩
      · obtain ⟨inside, rest⟩ := ih plain' entry member
        exact ⟨List.mem_cons_of_mem _ inside, rest⟩
    · obtain ⟨inside, rest⟩ := ih plain entry member
      exact ⟨List.mem_cons_of_mem _ inside, rest⟩

/-- **An encoder at work** puts the meanings into the dictionary, one after the other. -/
theorem foldl_meanings (config : EncoderConfig) (tokens : List Located) : ∀ round : Round D,
    (∀ located ∈ tokens, accepted located = true) →
    (tokens.foldl (encodeNode .harvest config) round).encoder.meaningDictionary =
        (putAll round.encoder.meaningDictionary ((meaningsOf config round.encoder tokens).map Prod.snd)).1 ∧
      (PlainNames round.encoder → PlainNames (tokens.foldl (encodeNode .harvest config) round).encoder) := by
  induction tokens with
  | nil => intro round _; exact ⟨rfl, id⟩
  | cons located rest ih =>
    intro round all
    obtain ⟨later, plain⟩ := ih (encodeNode .harvest config round located) fun other member =>
      all other (List.mem_cons_of_mem _ member)
    rw [List.foldl_cons, later, meaningsOf]
    cases type : located.token.getType with
    | var =>
      have isVar : located.token.isVar = true := by rw [CmmlToken.isVar, type]; rfl
      have kept : (encodeNode .harvest config round located).encoder = round.encoder := by
        unfold encodeNode encodeToken
        simp only [isVar, if_true]
        split <;> rfl
      rw [kept, if_neg (by decide)]
      rw [kept] at plain
      exact ⟨rfl, plain⟩
    | range =>
      have noVar : located.token.isVar = false := by rw [CmmlToken.isVar, type]; rfl
      have isRange : located.token.isRange = true := by rw [CmmlToken.isRange, type]; rfl
      have kept : (encodeNode .harvest config round located).encoder = round.encoder := by
        unfold encodeNode encodeToken
        simp only [noVar, Bool.false_eq_true, if_false, isRange, if_true]
        rfl
      rw [kept, if_neg (by decide)]
      rw [kept] at plain
      exact ⟨rfl, plain⟩
    | constant =>
      have narrow : located.token.getArity ≤ encTokMaxArity := by
        have goesOn := all located List.mem_cons_self
        rw [accepted, CmmlToken.isVar, CmmlToken.isRange, type] at goesOn
        exact of_decide_eq_true goesOn
      have named' : PlainNames round.encoder → PlainNames (constantName config round.encoder located).1 :=
        fun plain => (constantName_split plain config located).1
      rw [encodeNode_plain .harvest config round ⟨type, narrow⟩] at plain ⊢
      rw [if_pos rfl, List.map_cons, putAll]
      have same := meaningDictionary_constantName config round.encoder located
      generalize constantName config round.encoder located = named at same named' plain
      refine ⟨?_, fun names => plain (named' names)⟩
      rw [← same]
      show (putAll (named.1.meaningDictionary.put named.2).1
        ((meaningsOf config { named.1 with meaningDictionary := _ } rest).map Prod.snd)).1 = _
      rw [meaningsOf_dictionary]

/-- The dictionary behind a call of `encode`. -/
theorem encode_meanings (config : EncoderConfig) (self : ExpressionEncoder) (expression : Located)
    (info : Option (ExpressionInfo D)) :
    (encode .harvest self config expression info).1.encoder.meaningDictionary =
        (putAll self.meaningDictionary
          ((meaningsOf config self ((dfs [expression]).takeWhile accepted)).map Prod.snd)).1 ∧
      (PlainNames self → PlainNames (encode .harvest self config expression info).1.encoder) := by
  rw [encode, encodeLoop_eq]
  exact foldl_meanings config _ (self.startRound info) fun located member => List.mem_takeWhile_imp member

end ExpressionEncoder

namespace IndexBuilder

/-! ### Runs of the indexer -/

/-- The meanings put for subexpressions, by one encoder. -/
def meaningsFrom (config : EncoderConfig) : ExpressionEncoder → List Located → List (Located × Str)
  | _, [] => []
  | encoder, token :: rest =>
    meaningsOf config encoder ((dfs [token]).takeWhile accepted) ++
      meaningsFrom config (encodeSubexpression config encoder token).1 rest

/-- **The meanings put into the dictionary for expressions**, each with the token it was made from. -/
def storedMeanings (config : EncoderConfig) : MeaningDictionary → List (CmmlToken × Str × CrawlId) →
    List (Located × Str)
  | _, [] => []
  | dictionary, input :: rest =>
    meaningsFrom config (.new dictionary) (foreachSubexpression input.1) ++
      storedMeanings config (dictionaryAfter config dictionary input.1) rest

theorem encoderAfter_meanings (config : EncoderConfig) (tokens : List Located) : ∀ encoder : ExpressionEncoder,
    (encoderAfter config encoder tokens).meaningDictionary =
      (putAll encoder.meaningDictionary ((meaningsFrom config encoder tokens).map Prod.snd)).1 := by
  induction tokens with
  | nil => intro encoder; rfl
  | cons token rest ih =>
    intro encoder
    have first := (encode_meanings (D := .whole) config encoder token none).1
    have later := ih (encodeSubexpression config encoder token).1
    rw [encoderAfter, List.foldl_cons, ← encoderAfter, later, meaningsFrom, List.map_append, putAll_append]
    rw [show (encodeSubexpression config encoder token).1.meaningDictionary = _ from first]

/-- **The dictionary holds the stored meanings**, and no others. -/
theorem dictionaryAfterAll_storedMeanings (config : EncoderConfig) (inputs : List (CmmlToken × Str × CrawlId)) :
    ∀ dictionary : MeaningDictionary, dictionaryAfterAll config dictionary inputs =
      (putAll dictionary ((storedMeanings config dictionary inputs).map Prod.snd)).1 := by
  induction inputs with
  | nil => intro dictionary; rfl
  | cons input rest ih =>
    intro dictionary
    have first : dictionaryAfter config dictionary input.1 = _ := encoderAfter_meanings config _ (.new dictionary)
    rw [dictionaryAfterAll, List.foldl_cons, ← dictionaryAfterAll, ih, storedMeanings, List.map_append, putAll_append,
      first]
    rfl

/-- What is put for subexpressions. -/
theorem mem_meaningsFrom {config : EncoderConfig} (tokens : List Located) : ∀ {encoder : ExpressionEncoder},
    PlainNames encoder → (∀ entry ∈ meaningsFrom config encoder tokens, ∃ token ∈ tokens, entry.1 ∈ dfs [token] ∧
      accepted entry.1 = true ∧ entry.1.token.getType = .constant ∧ (Renamed config entry.1 → '#' ∉ entry.2) ∧
      (¬ Renamed config entry.1 → entry.2 = entry.1.token.getMeaning)) ∧
    ∀ token ∈ tokens, token.token.getType = .constant → accepted token = true →
      ∃ entry ∈ meaningsFrom config encoder tokens, entry.1 = token := by
  induction tokens with
  | nil =>
    intro encoder _
    refine ⟨fun entry member => ?_, fun token member => ?_⟩
    · cases member
    · cases member
  | cons token rest ih =>
    intro encoder plain
    obtain ⟨sound, complete⟩ := ih ((encode_meanings (D := .whole) config encoder token none).2 plain)
    rw [meaningsFrom]
    refine ⟨fun entry member => ?_, fun other member constant goesOn => ?_⟩
    · rcases List.mem_append.mp member with here | later
      · obtain ⟨inside, shape⟩ := mem_meaningsOf _ plain entry here
        exact ⟨token, List.mem_cons_self, List.takeWhile_subset _ inside, List.mem_takeWhile_imp inside, shape⟩
      · obtain ⟨token', among, shape⟩ := sound entry later
        exact ⟨token', List.mem_cons_of_mem _ among, shape⟩
    · rcases List.mem_cons.mp member with rfl | member
      · -- the token is the first one of its own encoding
        refine ⟨(other, (constantName config encoder other).2), List.mem_append_left _ ?_, rfl⟩
        rw [dfs, List.takeWhile_cons_of_pos goesOn, meaningsOf, if_pos constant]
        exact List.mem_cons_self
      · obtain ⟨entry, among, same⟩ := complete other member constant goesOn
        exact ⟨entry, List.mem_append_right _ among, same⟩

/-- The nodes below a node of a tree are nodes of the tree. -/
theorem dfs_trans (token : CmmlToken) : ∀ {parent : Option CmmlToken} {position : List Nat} {middle inner : Located},
    middle ∈ dfs [⟨token, parent, position⟩] → inner ∈ dfs [middle] → inner ∈ dfs [⟨token, parent, position⟩] := by
  induction token with
  | mk tag attributes text children ih =>
    intro parent position middle inner outside inside
    rw [dfs, List.append_nil] at outside ⊢
    rcases List.mem_cons.mp outside with rfl | below
    · rwa [dfs, List.append_nil] at inside
    · refine List.mem_cons_of_mem _ ?_
      rw [dfs_eq] at below ⊢
      obtain ⟨child, among, below⟩ := List.mem_flatMap.mp below
      refine List.mem_flatMap.mpr ⟨child, among, ?_⟩
      have member : child.token ∈ children := by
        have tokens := List.mem_map_of_mem (f := Located.token) among
        rwa [map_token_childNodes] at tokens
      have deeper := @ih child.token member child.parent child.position middle inner
      rw [dfs_eq, List.flatMap_singleton] at deeper
      exact deeper below inside

theorem mem_storedMeanings {config : EncoderConfig} (inputs : List (CmmlToken × Str × CrawlId)) :
    ∀ {dictionary : MeaningDictionary},
      (∀ entry ∈ storedMeanings config dictionary inputs, ∃ input ∈ inputs, entry.1 ∈ foreachSubexpression input.1 ∧
        accepted entry.1 = true ∧ entry.1.token.getType = .constant ∧ (Renamed config entry.1 → '#' ∉ entry.2) ∧
        (¬ Renamed config entry.1 → entry.2 = entry.1.token.getMeaning)) ∧
      ∀ input ∈ inputs, ∀ located ∈ foreachSubexpression input.1, located.token.getType = .constant →
        accepted located = true → ∃ entry ∈ storedMeanings config dictionary inputs, entry.1 = located := by
  induction inputs with
  | nil =>
    intro dictionary
    refine ⟨fun entry member => ?_, fun input member => ?_⟩
    · cases member
    · cases member
  | cons input rest ih =>
    intro dictionary
    obtain ⟨sound, complete⟩ := @mem_meaningsFrom config (foreachSubexpression input.1) (.new dictionary)
      (plainNames_new dictionary)
    obtain ⟨soundRest, completeRest⟩ := @ih (dictionaryAfter config dictionary input.1)
    rw [storedMeanings]
    refine ⟨fun entry member => ?_, fun other member located inside constant goesOn => ?_⟩
    · rcases List.mem_append.mp member with here | later
      · obtain ⟨token, among, below, shape⟩ := sound entry here
        exact ⟨input, List.mem_cons_self, dfs_trans _ among below, shape⟩
      · obtain ⟨input', among, shape⟩ := soundRest entry later
        exact ⟨input', List.mem_cons_of_mem _ among, shape⟩
    · rcases List.mem_cons.mp member with rfl | member
      · obtain ⟨entry, among, same⟩ := complete located inside constant goesOn
        exact ⟨entry, List.mem_append_left _ among, same⟩
      · obtain ⟨entry, among, same⟩ := completeRest other member located inside constant goesOn
        exact ⟨entry, List.mem_append_right _ among, same⟩

/-- **Every stored meaning comes apart into the tag and the text it was made from exactly when no tag has a `#` and no
`ci` is renamed.** The dictionary holds the stored meanings and no others. -/
theorem storedMeanings_iff (config : EncoderConfig) (inputs : List (CmmlToken × Str × CrawlId)) :
    dictionaryAfterAll config .empty inputs =
        (putAll .empty ((storedMeanings config .empty inputs).map Prod.snd)).1 ∧
      ((∀ entry ∈ storedMeanings config .empty inputs,
          splitMeaning entry.2 = some (entry.1.token.getTag, entry.1.token.meaningText)) ↔
        ∀ input ∈ inputs, ∀ located ∈ foreachSubexpression input.1, located.token.getType = .constant →
          located.token.getArity ≤ encTokMaxArity → '#' ∉ located.token.getTag ∧ ¬ Renamed config located) := by
  obtain ⟨sound, complete⟩ := @mem_storedMeanings config inputs .empty
  refine ⟨dictionaryAfterAll_storedMeanings config inputs .empty, fun splits input member located inside constant narrow => ?_,
    fun plain entry member => ?_⟩
  · obtain ⟨entry, among, rfl⟩ := complete input member located inside constant ((accepted_iff _).mpr fun _ => narrow)
    obtain ⟨-, -, -, -, -, renamed, kept⟩ := sound entry among
    have split := splits entry among
    have notRenamed : ¬ Renamed config entry.1 := by
      intro names
      obtain ⟨whole, -⟩ := splitMeaning_eq_some_iff.mp split
      exact renamed names (by rw [whole]; simp)
    rw [kept notRenamed] at split
    exact ⟨(splitMeaning_getMeaning_iff _).mp split, notRenamed⟩
  · obtain ⟨input, among, inside, goesOn, constant, -, kept⟩ := sound entry member
    obtain ⟨noHash, notRenamed⟩ := plain input among entry.1 inside constant ((accepted_iff _).mp goesOn constant)
    rw [kept notRenamed]
    exact (splitMeaning_getMeaning_iff _).mpr noHash

/-- `<ci>x</ci>`. -/
def lonelyX : CmmlToken := .mk ciTag [] ⟨['x'], isspace_of_all rfl⟩ []

/-- **A `ci` that is renamed** is stored under a meaning without `#`. -/
theorem storedMeanings_renamed :
    storedMeanings ⟨true⟩ .empty [(lonelyX, [], crawlIdNull)] = [(.root lonelyX, ['~', '1'])] ∧
      splitMeaning ['~', '1'] = none := by
  have visits : foreachSubexpression lonelyX = [.root lonelyX] := by rw [foreachSubexpression_eq]; rfl
  have visits' : dfs [.root lonelyX] = [.root lonelyX] := visits
  rw [storedMeanings, visits, meaningsFrom, visits']
  exact ⟨rfl, rfl⟩

end IndexBuilder

end MathWebSearch
