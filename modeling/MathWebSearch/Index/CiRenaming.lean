/-
**The renaming of `ci` elements** (`ExpressionEncoder::_getCiMeaning`, `encode` with `renameCi = true`).

A `ci` of at most one byte that is not the first child of an `apply` is encoded under a new name `~n`, where `n` counts
the different texts in the order of their first occurrence. Names have no `#` and meanings have one, so that the two
never meet in the dictionary.

* `namesOf_renamed` — the names of a stretch of constants, in closed form.
* `numbers_eq_iff` — two lists have the same numbers of first occurrences exactly when a permutation leads from one to
  the other.
* `encode_renamed_iff` — two encodings are equal exactly when the trees are the same up to a permutation of the texts.
-/

import MathWebSearch.Index.EncodingInjective

namespace MathWebSearch

open CmmlToken IdDictionary

/-! ### Numbers of first occurrences -/

section FirstOccurrences

variable {Key : Type} [DecidableEq Key]

/-- Every item by the number of its first occurrence, counting different items only. -/
def numbers (items : List Key) : List Nat := items.map (numberOf (concatAll [] items))

theorem concatAll_map {Other : Type} [DecidableEq Other] {f : Key → Other} (injective : Function.Injective f)
    (items : List Key) : ∀ keys : List Key, concatAll (keys.map f) (items.map f) = (concatAll keys items).map f := by
  induction items with
  | nil => intro keys; rfl
  | cons item rest ih =>
    intro keys
    have first : concatNew (keys.map f) (f item) = (concatNew keys item).map f := by
      by_cases member : item ∈ keys
      · rw [concatNew, concatNew, if_pos member, if_pos (List.mem_map_of_mem member)]
      · rw [concatNew, concatNew, if_neg member, if_neg fun image => member ((List.mem_map_of_injective injective).mp image),
          List.map_append, List.map_singleton]
    rw [List.map_cons, concatAll, List.foldl_cons, ← concatAll, first, ih]
    rfl

theorem numberOf_map {Other : Type} [DecidableEq Other] {f : Key → Other} (injective : Function.Injective f)
    (keys : List Key) (key : Key) : numberOf (keys.map f) (f key) = numberOf keys key := by
  induction keys with
  | nil => rfl
  | cons head rest ih =>
    rw [numberOf, numberOf] at ih
    rw [numberOf, numberOf, List.map_cons, List.idxOf_cons, List.idxOf_cons]
    have same : (f head == f key) = (head == key) := by
      rw [Bool.eq_iff_iff, beq_iff_eq, beq_iff_eq, injective.eq_iff]
    rw [same]
    cases head == key
    · exact congrArg (· + 1) ih
    · rfl

/-- An injective renaming keeps the numbers. -/
theorem numbers_map {f : Key → Key} (injective : Function.Injective f) (items : List Key) :
    numbers (items.map f) = numbers items := by
  have keys : concatAll [] (items.map f) = (concatAll [] items).map f := concatAll_map injective items []
  rw [numbers, numbers, keys, List.map_map]
  exact List.map_congr_left fun item _ => numberOf_map injective _ item

omit [DecidableEq Key] in
/-- An injective map on some items extends to a permutation. -/
theorem exists_perm_extending [Finite Key] {f : Key → Key} {items : Set Key} (injective : Set.InjOn f items) :
    ∃ p : Equiv.Perm Key, ∀ item ∈ items, p item = f item := by
  classical
  refine ⟨(Equiv.Set.imageOfInjOn f items injective).extendSubtype, fun item member => ?_⟩
  rw [Equiv.extendSubtype_apply_of_mem _ item member]
  rfl

/-- **Two lists have the same numbers exactly when a permutation leads from one to the other.** -/
theorem numbers_eq_iff [Finite Key] (items items' : List Key) :
    numbers items = numbers items' ↔ ∃ p : Equiv.Perm Key, items' = items.map p := by
  constructor
  · intro same
    have lengths : items.length = items'.length := by simpa [numbers] using congrArg List.length same
    have placed : ∀ place (inside : place < items.length) (inside' : place < items'.length),
        (concatAll [] items).idxOf items[place] = (concatAll [] items').idxOf items'[place] := by
      intro place inside inside'
      have here := congrArg (fun list => list[place]?) same
      simp only [numbers, List.getElem?_map, List.getElem?_eq_getElem inside, List.getElem?_eq_getElem inside',
        Option.map_some, Option.some.injEq] at here
      exact Nat.succ.inj here
    -- the item with the same number among the others
    let f : Key → Key := fun item => (concatAll [] items').getD ((concatAll [] items).idxOf item) item
    have image : ∀ place (inside : place < items.length) (inside' : place < items'.length),
        f items[place] = items'[place] := by
      intro place inside inside'
      have member : items'[place] ∈ concatAll [] items' := (mem_concatAll _).mpr (Or.inr (List.getElem_mem inside'))
      show (concatAll [] items').getD _ _ = _
      rw [placed place inside inside', List.getD_eq_getElem?_getD, List.getElem?_idxOf member, Option.getD_some]
    have injective : Set.InjOn f { item | item ∈ items } := by
      intro item member other member' equal
      obtain ⟨place, inside, rfl⟩ := List.getElem_of_mem member
      obtain ⟨place', inside', rfl⟩ := List.getElem_of_mem member'
      rw [image place inside (lengths ▸ inside), image place' inside' (lengths ▸ inside')] at equal
      have known : items[place] ∈ concatAll [] items := (mem_concatAll _).mpr (Or.inr member)
      refine (List.idxOf_inj known).mp ?_
      rw [placed place inside (lengths ▸ inside), placed place' inside' (lengths ▸ inside'), equal]
    obtain ⟨p, agrees⟩ := exists_perm_extending injective
    refine ⟨p, List.ext_getElem (by rw [List.length_map, lengths]) fun place inside' inside => ?_⟩
    rw [List.length_map] at inside
    rw [List.getElem_map, agrees _ (List.getElem_mem inside), image place inside inside']
  · rintro ⟨p, rfl⟩
    exact (numbers_map p.injective items).symm

end FirstOccurrences

namespace ExpressionEncoder

variable {D : Doubles}

/-! ### The texts that are renamed -/

/-- A text of at most one byte. -/
def SmallText := { text : Str // text.length ≤ 1 }

instance : DecidableEq SmallText := inferInstanceAs (DecidableEq (Subtype _))

theorem toNat_char_lt (char : Char) : char.toNat < 1114112 := by
  have valid : char.toNat.isValidChar := char.valid
  rcases valid with low | high
  · omega
  · exact high.2

theorem index_empty_lt : 0 < 2 ^ 21 := Nat.two_pow_pos 21

theorem index_char_lt (char : Char) : char.toNat + 1 < 2 ^ 21 := by
  have bound := toNat_char_lt char
  omega

/-- The number of a small text: none, or one character. -/
def SmallText.index (text : SmallText) : Fin (2 ^ 21) :=
  match text.val with
  | [] => ⟨0, index_empty_lt⟩
  | char :: _ => ⟨char.toNat + 1, index_char_lt char⟩

theorem SmallText.index_injective : Function.Injective SmallText.index := by
  rintro ⟨text, short⟩ ⟨text', short'⟩ same
  refine Subtype.ext ?_
  match text, text', short, short', same with
  | [], [], _, _, _ => rfl
  | [], char :: _, _, _, same => exact absurd (congrArg Fin.val same) (by simp [index])
  | char :: _, [], _, _, same => exact absurd (congrArg Fin.val same) (by simp [index])
  | [char], [char'], _, _, same =>
    have equal := congrArg Fin.val same
    simp only [index, Nat.add_right_cancel_iff] at equal
    rw [Char.toNat_inj.mp equal]

instance : Finite SmallText := Finite.of_injective _ SmallText.index_injective

/-- There are few small texts. -/
theorem SmallText.length_le {texts : List SmallText} (nodup : texts.Nodup) : texts.length ≤ 2 ^ 21 := by
  have short := (nodup.map SmallText.index_injective).length_le_card
  rwa [List.length_map, Fintype.card_fin] at short

/-- A `ci` with a text of at most one byte that is not the first child of an `apply`. -/
def Renameable (located : Located) : Prop :=
  located.token.getTag = ciTag ∧ located.token.getTextContent.val.length ≤ 1 ∧
    ¬(located.parent.map getTag = some applyTag ∧ located.position.head? = some 1)

instance (located : Located) : Decidable (Renameable located) := inferInstanceAs (Decidable (_ ∧ _ ∧ ¬_))

/-- The text of a `ci` that is renamed. -/
def ciText (located : Located) : SmallText :=
  ⟨located.token.getTextContent.val.take 1, by rw [List.length_take]; exact Nat.min_le_left _ _⟩

theorem Renameable.ciText_val {located : Located} (renameable : Renameable located) :
    (ciText located).val = located.token.getTextContent.val := List.take_of_length_le renameable.2.1

/-- The meaning of a `ci`. -/
def ciMeaning (text : SmallText) : Str := ciTag ++ '#' :: text.val

theorem ciMeaning_injective : Function.Injective ciMeaning := by
  intro text text' same
  exact Subtype.ext (List.cons.inj (List.append_cancel_left same)).2

theorem Renameable.getMeaning {located : Located} (renameable : Renameable located) :
    located.token.getMeaning = ciMeaning (ciText located) := by
  rw [ciMeaning, renameable.ciText_val, CmmlToken.getMeaning, renameable.1, if_neg (by decide)]

/-- The test of the source for the elements that keep their meaning. -/
theorem keepsCi_iff {located : Located} (isCi : located.token.getTag = ciTag) :
    keepsCi located = true ↔ ¬Renameable located := by
  have meaning : located.token.getMeaning = 'c' :: 'i' :: '#' :: located.token.getTextContent.val := by
    rw [CmmlToken.getMeaning, isCi, if_neg (by decide)]
    rfl
  have long : decide (2 + ciTag.length < ('c' :: 'i' :: '#' :: located.token.getTextContent.val).length) = true ↔
      ¬located.token.getTextContent.val.length ≤ 1 := by
    rw [decide_eq_true_iff, List.length_cons, List.length_cons, List.length_cons,
      show ciTag.length = 2 from rfl]
    omega
  have first : (decide (located.parent.map getTag = some applyTag) && decide (located.position.head? = some 1)) = true ↔
      located.parent.map getTag = some applyTag ∧ located.position.head? = some 1 := by
    rw [Bool.and_eq_true, decide_eq_true_iff, decide_eq_true_iff]
  have other : ∀ char, decide ('c' :: 'i' :: '#' :: located.token.getTextContent.val = ['#', char]) = false :=
    fun char => decide_eq_false fun same => absurd (List.cons.inj same).1 (by decide)
  rw [keepsCi, Renameable, isCi, meaning, other, other, Bool.false_or, Bool.false_or, Bool.or_eq_true, long, first]
  tauto

/-! ### The names in closed form -/

/-- The new name with a number. -/
def ciName (number : Nat) : Str := '~' :: toStr number

theorem ciName_injective : Function.Injective ciName := by
  intro number number' same
  rw [← Nat.ofDigitChars_ten_toDigits (n := number), ← Nat.ofDigitChars_ten_toDigits (n := number')]
  exact congrArg (Nat.ofDigitChars 10 · 0) (List.cons.inj same).2

/-- A new name is not a meaning: it has no `#`. -/
theorem ciName_ne_getMeaning (number : Nat) (token : CmmlToken) : ciName number ≠ token.getMeaning := by
  intro same
  have hash : '#' ∈ token.getMeaning := by
    rw [CmmlToken.getMeaning]
    split_ifs <;> simp
  rw [← same, ciName, List.mem_cons] at hash
  rcases hash with hash | hash
  · exact absurd hash (by decide)
  · exact absurd (Nat.isDigit_of_mem_toDigits (by decide) (by decide) hash) (by decide)

/-- The table and the counter after the different texts `keys`. -/
structure Table (keys : List SmallText) (encoder : ExpressionEncoder) : Prop where
  entries : encoder.ciTranslations =
    (keys.zipIdx.map fun entry => (entry.1, entry.2 + 1)).map fun entry => (ciMeaning entry.1, ciName entry.2)
  counter : encoder.ciTranslationCounter = keys.length

theorem lookup_ciMeaning (entries : List (SmallText × Nat)) (text : SmallText) :
    (entries.map fun entry => (ciMeaning entry.1, ciName entry.2)).lookup (ciMeaning text) =
      (entries.lookup text).map ciName := by
  induction entries with
  | nil => rfl
  | cons entry rest ih =>
    rw [List.map_cons, List.lookup_cons, List.lookup_cons, ih]
    have same : (ciMeaning text == ciMeaning entry.1) = (text == entry.1) := by
      rw [Bool.eq_iff_iff, beq_iff_eq, beq_iff_eq, ciMeaning_injective.eq_iff]
    rw [same]
    cases text == entry.1 <;> rfl

/-- **One renaming**: the name carries the number of the text, and the table knows the text. -/
theorem translateCi_spec {self : ExpressionEncoder} {keys : List SmallText} (table : Table keys self)
    {located : Located} (renameable : Renameable located)
    (small : (concatNew keys (ciText located)).length < 2 ^ 32) :
    (translateCi self located).2 = ciName (numberOf (concatNew keys (ciText located)) (ciText located)) ∧
      Table (concatNew keys (ciText located)) (translateCi self located).1 := by
  have goes : keepsCi located = false :=
    Bool.eq_false_iff.mpr fun keeps => (keepsCi_iff renameable.1).mp keeps renameable
  have found : self.ciTranslations.lookup located.token.getMeaning =
      (if ciText located ∈ keys then some (numberOf keys (ciText located)) else none).map ciName := by
    rw [table.entries, renameable.getMeaning, lookup_ciMeaning, lookup_zipIdx, Nat.zero_add]
    rfl
  unfold translateCi
  simp only [goes, Bool.false_eq_true, if_false, found]
  by_cases member : ciText located ∈ keys
  · rw [if_pos member, concatNew, if_pos member]
    exact ⟨rfl, table⟩
  · rw [concatNew, if_neg member] at small ⊢
    rw [List.length_append, List.length_singleton] at small
    have counts : (self.ciTranslationCounter + 1) % 2 ^ 32 = keys.length + 1 := by
      rw [table.counter, Nat.mod_eq_of_lt small]
    rw [if_neg member, Option.map_none]
    simp only [counts]
    refine ⟨?_, ?_, ?_⟩
    · show ciName (keys.length + 1) = _
      rw [numberOf, List.idxOf_append_of_notMem member]
      simp
    · show self.ciTranslations ++ [(located.token.getMeaning, ciName (keys.length + 1))] = _
      rw [List.zipIdx_append, List.map_append, List.map_append, table.entries, renameable.getMeaning]
      simp
    · rw [List.length_append, List.length_singleton]

/-- The texts that are renamed, in the order in which they come. -/
def renamedTexts (tokens : List Located) : List SmallText :=
  (tokens.filter fun located => Renameable located).map ciText

/-- The name of a constant, when the different texts are `keys`. -/
def nameUnder (keys : List SmallText) (located : Located) : Str :=
  if Renameable located then ciName (numberOf keys (ciText located)) else located.token.getMeaning

/-- The names behind a table. -/
theorem namesOf_table (tokens : List Located) : ∀ {self : ExpressionEncoder} {keys : List SmallText},
    Table keys self → (concatAll keys (renamedTexts tokens)).length < 2 ^ 32 →
    namesOf ⟨true⟩ self tokens = tokens.map (nameUnder (concatAll keys (renamedTexts tokens))) := by
  induction tokens with
  | nil => intro self keys _ _; rfl
  | cons located rest ih =>
    intro self keys table small
    rw [namesOf, List.map_cons]
    by_cases renameable : Renameable located
    · have texts : renamedTexts (located :: rest) = ciText located :: renamedTexts rest := by
        rw [renamedTexts, List.filter_cons_of_pos (by simpa using renameable), List.map_cons, renamedTexts]
      have named : constantName ⟨true⟩ self located = self.translateCi located := by
        rw [constantName, renameable.1]
        rfl
      rw [texts, concatAll, List.foldl_cons, ← concatAll] at small ⊢
      obtain ⟨name, table'⟩ := translateCi_spec table renameable
        (lt_of_le_of_lt (length_le_concatAll _ _) small)
      rw [named, name, ih table' small, nameUnder, if_pos renameable,
        numberOf_concatAll _ (mem_concatNew.mpr (Or.inr rfl))]
    · have texts : renamedTexts (located :: rest) = renamedTexts rest := by
        rw [renamedTexts, List.filter_cons_of_neg (by simpa using renameable), renamedTexts]
      have named : constantName ⟨true⟩ self located = (self, located.token.getMeaning) := by
        rw [constantName]
        split_ifs with isCi
        · have isCi : located.token.getTag = ciTag := by simpa using isCi
          rw [translateCi]
          simp only [(keepsCi_iff isCi).mpr renameable, if_true]
        · rfl
      rw [texts] at small ⊢
      rw [named, ih table small, nameUnder, if_neg renameable]

/-- **The names of a stretch of constants** that a fresh encoder uses. -/
theorem namesOf_renamed (dictionary : MeaningDictionary) (tokens : List Located) :
    namesOf ⟨true⟩ (.new dictionary) tokens = tokens.map (nameUnder (concatAll [] (renamedTexts tokens))) := by
  refine namesOf_table tokens ⟨rfl, rfl⟩ ?_
  exact lt_of_le_of_lt (SmallText.length_le (nodup_concatAll _ List.nodup_nil)) (by decide)

/-! ### Corresponding nodes -/

/-- Two nodes correspond under a permutation of the small texts: they have equally many children; both are renamed and
the permutation leads from one text to the other, or none is and the meanings are equal. -/
structure Corresponds (p : Equiv.Perm SmallText) (one two : Located) : Prop where
  children : one.token.getChildNodes.length = two.token.getChildNodes.length
  both : Renameable one ↔ Renameable two
  texts : Renameable one → ciText two = p (ciText one)
  meanings : ¬Renameable one → one.token.getMeaning = two.token.getMeaning

theorem renamedTexts_cons_of_pos {located : Located} (rest : List Located) (renameable : Renameable located) :
    renamedTexts (located :: rest) = ciText located :: renamedTexts rest := by
  rw [renamedTexts, List.filter_cons_of_pos (by simpa using renameable), List.map_cons, renamedTexts]

theorem renamedTexts_cons_of_neg {located : Located} (rest : List Located) (kept : ¬Renameable located) :
    renamedTexts (located :: rest) = renamedTexts rest := by
  rw [renamedTexts, List.filter_cons_of_neg (by simpa using kept), renamedTexts]

/-- What is asked of the texts that are renamed is asked of the lists of these texts. -/
theorem forall₂_renamedTexts {Q : SmallText → SmallText → Prop} {S : Located → Located → Prop} {tokens : List Located} :
    ∀ {tokens' : List Located},
      (List.Forall₂ (fun one two => (Renameable one ↔ Renameable two) ∧ (Renameable one → Q (ciText one) (ciText two)) ∧
          S one two) tokens tokens' ↔
        List.Forall₂ (fun one two => (Renameable one ↔ Renameable two) ∧ S one two) tokens tokens' ∧
          List.Forall₂ Q (renamedTexts tokens) (renamedTexts tokens')) := by
  induction tokens with
  | nil =>
    intro tokens'
    cases tokens' with
    | nil => simp [renamedTexts]
    | cons two rest' => simp
  | cons one rest ih =>
    intro tokens'
    cases tokens' with
    | nil => simp
    | cons two rest' =>
      rw [List.forall₂_cons, List.forall₂_cons, ih]
      by_cases renameable : Renameable one
      · by_cases renameable' : Renameable two
        · rw [renamedTexts_cons_of_pos rest renameable, renamedTexts_cons_of_pos rest' renameable', List.forall₂_cons]
          tauto
        · tauto
      · by_cases renameable' : Renameable two
        · tauto
        · rw [renamedTexts_cons_of_neg rest renameable, renamedTexts_cons_of_neg rest' renameable']
          tauto

/-- The names of two nodes are equal. -/
theorem nameUnder_eq_iff {keys keys' : List SmallText} {one two : Located} :
    nameUnder keys one = nameUnder keys' two ↔ (Renameable one ↔ Renameable two) ∧
      (Renameable one → numberOf keys (ciText one) = numberOf keys' (ciText two)) ∧
      (¬Renameable one → one.token.getMeaning = two.token.getMeaning) := by
  rw [nameUnder, nameUnder]
  split_ifs with renameable renameable' renameable'
  · rw [ciName_injective.eq_iff]
    tauto
  · have apart := ciName_ne_getMeaning (numberOf keys (ciText one)) two.token
    tauto
  · have apart := (ciName_ne_getMeaning (numberOf keys' (ciText two)) one.token).symm
    tauto
  · tauto

/-- The name and the number of children of a constant, when the different texts are `keys`. -/
def symbolUnder (keys : List SmallText) (located : Located) : Str × Nat :=
  (nameUnder keys located, located.token.getChildNodes.length)

/-- **Equal names and arities** are nodes that correspond under a permutation. -/
theorem symbolUnder_eq_iff (tokens tokens' : List Located) :
    tokens.map (symbolUnder (concatAll [] (renamedTexts tokens))) =
        tokens'.map (symbolUnder (concatAll [] (renamedTexts tokens'))) ↔
      ∃ p, List.Forall₂ (Corresponds p) tokens tokens' := by
  -- the two sides differ in what they ask of the texts only
  let S := fun one two : Located => (¬Renameable one → one.token.getMeaning = two.token.getMeaning) ∧
    one.token.getChildNodes.length = two.token.getChildNodes.length
  let Rest := List.Forall₂ (fun one two => (Renameable one ↔ Renameable two) ∧ S one two) tokens tokens'
  have left : tokens.map (symbolUnder (concatAll [] (renamedTexts tokens))) =
        tokens'.map (symbolUnder (concatAll [] (renamedTexts tokens'))) ↔
      Rest ∧ numbers (renamedTexts tokens) = numbers (renamedTexts tokens') := by
    rw [← List.forall₂_eq_eq_eq, List.forall₂_map_left_iff, List.forall₂_map_right_iff, numbers, numbers,
      ← List.forall₂_eq_eq_eq, List.forall₂_map_left_iff, List.forall₂_map_right_iff, ← forall₂_renamedTexts]
    simp only [symbolUnder, Prod.mk.injEq, nameUnder_eq_iff, and_assoc, S]
  have right : ∀ p : Equiv.Perm SmallText, List.Forall₂ (Corresponds p) tokens tokens' ↔
      Rest ∧ renamedTexts tokens' = (renamedTexts tokens).map p := by
    intro p
    have pointwise : Corresponds p = fun one two => (Renameable one ↔ Renameable two) ∧
        (Renameable one → ciText two = p (ciText one)) ∧ S one two := by
      funext one two
      exact propext ⟨fun all => ⟨all.both, all.texts, all.meanings, all.children⟩,
        fun all => ⟨all.2.2.2, all.1, all.2.1, all.2.2.1⟩⟩
    rw [pointwise, forall₂_renamedTexts (Q := fun text text' => text' = p text), eq_comm,
      ← List.forall₂_eq_eq_eq, List.forall₂_map_left_iff]
    simp only [eq_comm, Rest]
  rw [left, numbers_eq_iff]
  simp only [right, exists_and_left]

/-! ### Renamed nodes of the first tree only -/

/-- As `Corresponds`, asking for the nodes that are renamed in the first tree only. -/
structure Renames (p : Equiv.Perm SmallText) (one two : Located) : Prop where
  children : one.token.getChildNodes.length = two.token.getChildNodes.length
  renamed : Renameable one → Renameable two ∧ ciText two = p (ciText one)
  others : ¬Renameable one → one.token.getMeaning = two.token.getMeaning

/-- Two nodes stand alike: both or none is the first child of an `apply`. -/
def StandAlike (one two : Located) : Prop :=
  (one.parent.map getTag = some applyTag ∧ one.position.head? = some 1) ↔
    two.parent.map getTag = some applyTag ∧ two.position.head? = some 1

theorem Renames.corresponds {p : Equiv.Perm SmallText} {one two : Located} (renames : Renames p one two)
    (alike : StandAlike one two) (plain : '#' ∉ one.token.getTag) (plain' : '#' ∉ two.token.getTag) :
    Corresponds p one two := by
  refine ⟨renames.children, ⟨fun renameable => (renames.renamed renameable).1, fun renameable' => ?_⟩,
    fun renameable => (renames.renamed renameable).2, renames.others⟩
  by_contra kept
  obtain ⟨tags, texts⟩ := (getMeaning_eq_iff plain plain').mp (renames.others kept)
  obtain ⟨isCi, short, behind⟩ := renameable'
  have notMtext : one.token.getTag ≠ mtextTag := by
    rw [tags, isCi]
    decide
  exact kept ⟨tags.trans isCi, by rw [texts notMtext]; exact short, fun first => behind (alike.mp first)⟩

/-- Corresponding nodes are both an `apply` or none is. -/
theorem Corresponds.apply_iff {p : Equiv.Perm SmallText} {one two : Located} (corresponds : Corresponds p one two)
    (plain : '#' ∉ one.token.getTag) (plain' : '#' ∉ two.token.getTag) :
    one.token.getTag = applyTag ↔ two.token.getTag = applyTag := by
  by_cases renameable : Renameable one
  · rw [renameable.1, (corresponds.both.mp renameable).1]
  · rw [((getMeaning_eq_iff plain plain').mp (corresponds.meanings renameable)).1]

theorem standAlike_childNodes {one two : Located}
    (tags : one.token.getTag = applyTag ↔ two.token.getTag = applyTag) {children : List CmmlToken} :
    ∀ {children' : List CmmlToken} (number : Nat), children.length = children'.length →
      List.Forall₂ StandAlike (Located.childNodesFrom one.token one.position children number)
        (Located.childNodesFrom two.token two.position children' number) := by
  induction children with
  | nil =>
    intro children' number lengths
    obtain rfl := List.eq_nil_of_length_eq_zero lengths.symm
    exact .nil
  | cons child rest ih =>
    intro children' number lengths
    cases children' with
    | nil => cases lengths
    | cons child' rest' =>
      refine .cons ?_ (ih (number + 1) (Nat.succ.inj lengths))
      show (some one.token.getTag = some applyTag ∧ _) ↔ (some two.token.getTag = some applyTag ∧ _)
      rw [Option.some.injEq, Option.some.injEq, tags]
      exact Iff.rfl

/-- **Where the nodes on the two stacks stand alike, all nodes below do**, and the nodes that are renamed are the same
ones in both trees. -/
theorem renames_dfs {p : Equiv.Perm SmallText} (stack : List Located) : ∀ {stack' : List Located},
    List.Forall₂ StandAlike stack stack' → (∀ located ∈ dfs stack, '#' ∉ located.token.getTag) →
    (∀ located ∈ dfs stack', '#' ∉ located.token.getTag) → List.Forall₂ (Renames p) (dfs stack) (dfs stack') →
    List.Forall₂ (Corresponds p) (dfs stack) (dfs stack') := by
  fun_induction dfs stack with
  | case1 =>
    intro stack' alike _ _ _
    cases alike
    rw [dfs]
    exact .nil
  | case2 top rest ih =>
    intro stack' alike plain plain' renames
    cases alike with
    | cons here others =>
      rename_i top' rest'
      rw [dfs] at plain' renames ⊢
      obtain ⟨renamesTop, renamesBelow⟩ := List.forall₂_cons.mp renames
      have corresponds : Corresponds p top top' :=
        renamesTop.corresponds here (plain top List.mem_cons_self) (plain' top' List.mem_cons_self)
      refine .cons corresponds (ih (List.rel_append ?_ others) (fun located member => plain located (List.mem_cons_of_mem _ member))
        (fun located member => plain' located (List.mem_cons_of_mem _ member)) renamesBelow)
      exact standAlike_childNodes
        (corresponds.apply_iff (plain top List.mem_cons_self) (plain' top' List.mem_cons_self)) 1 renamesTop.children

/-! ### The encodings -/

/-- Trees without variables and with at most 255 children at every node are accepted. -/
theorem accepted_of_narrow {tree : CmmlToken}
    (narrow : ∀ inner ∈ subtrees tree, inner.getChildNodes.length ≤ 255) :
    ∀ located ∈ dfs [.root tree], accepted located = true := by
  intro located member
  have few := narrow _ (mem_subtrees_of_dfs member)
  have arity : located.token.getArity ≤ encTokMaxArity := le_trans (Nat.mod_le _ _) few
  rw [accepted, decide_eq_true arity, Bool.or_true]

/-- The names and arities of a tree that a fresh encoder with renaming uses. -/
theorem namedSymbols_renamed (dictionary : MeaningDictionary) {tree : CmmlToken}
    (narrow : ∀ inner ∈ subtrees tree, inner.getChildNodes.length ≤ 255) :
    namedSymbols ⟨true⟩ (.new dictionary) (dfs [.root tree]) =
      (dfs [.root tree]).map (symbolUnder (concatAll [] (renamedTexts (dfs [.root tree])))) := by
  rw [namedSymbols, namesOf_renamed, List.zip_map']
  refine List.map_congr_left fun located member => ?_
  have few := narrow _ (mem_subtrees_of_dfs member)
  rw [symbolUnder, getArity, Nat.mod_eq_of_lt (lt_of_le_of_lt few (by decide))]

/-- What the words of a narrow tree are made of. -/
theorem known_renamed {dictionary : MeaningDictionary} {tree : CmmlToken} {keys : List Str}
    (narrow : ∀ inner ∈ subtrees tree, inner.getChildNodes.length ≤ 255)
    (known : ∀ name ∈ namesOf ⟨true⟩ (.new dictionary) (dfs [.root tree]), name ∈ keys) :
    ∀ symbol ∈ (dfs [.root tree]).map (symbolUnder (concatAll [] (renamedTexts (dfs [.root tree])))),
      symbol.1 ∈ keys ∧ symbol.2 ≤ encTokMaxArity := by
  intro symbol member
  obtain ⟨located, visited, rfl⟩ := List.mem_map.mp member
  refine ⟨known _ ?_, narrow _ (mem_subtrees_of_dfs visited)⟩
  rw [namesOf_renamed]
  exact List.mem_map_of_mem visited

/-- **The renaming of `ci` elements is canonical.** Two trees without variables, with at most 255 children at every
node, are encoded with `renameCi` by fresh harvest encoders over one dictionary that ends with fewer than
`2 ^ 24 - 161` meanings. Both are accepted, and the formulas are equal if and only if the trees have the same shape and
a permutation `p` of the texts of at most one byte exists such that corresponding nodes are renamed in both trees, with
texts `x` and `p x`, or in none, with equal meanings. In trees whose tags have no `#`, as all that are read from XML, it
is enough to ask this of the nodes that are renamed in the first tree. -/
theorem encode_renamed_iff {dictionary dictionary' last : MeaningDictionary} {tree tree' : CmmlToken}
    (sharing : Sharing D ⟨true⟩ (.new dictionary) (.new dictionary') (.root tree) (.root tree') last)
    (few : last.map.length < 2 ^ 24 - 161)
    (free : tree.VariableFree) (free' : tree'.VariableFree)
    (narrow : ∀ inner ∈ subtrees tree, inner.getChildNodes.length ≤ 255)
    (narrow' : ∀ inner ∈ subtrees tree', inner.getChildNodes.length ≤ 255) :
    let one := encode (D := D) .harvest (.new dictionary) ⟨true⟩ (.root tree) none
    let two := encode (D := D) .harvest (.new dictionary') ⟨true⟩ (.root tree') none
    one.2 = 0 ∧ two.2 = 0 ∧
      (one.1.encodedFormula = two.1.encodedFormula ↔
        ∃ p, List.Forall₂ (Corresponds p) (foreachSubexpression tree) (foreachSubexpression tree')) ∧
      ((∀ inner ∈ subtrees tree, '#' ∉ inner.getTag) → (∀ inner ∈ subtrees tree', '#' ∉ inner.getTag) →
        (one.1.encodedFormula = two.1.encodedFormula ↔
          ∃ p, List.Forall₂ (Renames p) (foreachSubexpression tree) (foreachSubexpression tree'))) := by
  intro one two
  obtain ⟨keys, roomy, -, coded, coded'⟩ :=
    sharing.codes (constants_of_variableFree free) (constants_of_variableFree free') few
  have all := accepted_of_narrow narrow
  have all' := accepted_of_narrow narrow'
  have whole := List.takeWhile_eq_self_iff.mpr all
  have whole' := List.takeWhile_eq_self_iff.mpr all'
  have word : one.1.encodedFormula = _ := coded.formula
  have word' : two.1.encodedFormula = _ := coded'.formula
  have known := coded.known
  have known' := coded'.known
  rw [whole] at word known
  rw [whole'] at word' known'
  rw [namedSymbols_renamed dictionary narrow] at word
  rw [namedSymbols_renamed dictionary' narrow'] at word'
  have canonical : one.1.encodedFormula = two.1.encodedFormula ↔
      ∃ p, List.Forall₂ (Corresponds p) (foreachSubexpression tree) (foreachSubexpression tree') := by
    rw [word, word', code_eq_iff roomy (known_renamed narrow known) (known_renamed narrow' known')]
    exact symbolUnder_eq_iff _ _
  refine ⟨coded.returns.mpr (List.all_eq_true.mpr all), coded'.returns.mpr (List.all_eq_true.mpr all'), canonical, ?_⟩
  intro plain plain'
  refine canonical.trans (exists_congr fun p => ⟨fun corresponds => ?_, fun renames => ?_⟩)
  · exact corresponds.imp fun one two here => ⟨here.children, fun renameable =>
      ⟨here.both.mp renameable, here.texts renameable⟩, here.meanings⟩
  · exact renames_dfs _ (.cons Iff.rfl .nil) (forall_dfs_root.mpr plain) (forall_dfs_root.mpr plain') renames

/-- `<list><ci>x</ci></list>`, with a letter of one's choice. -/
def listOf (letter : Char) (black : isspace letter = false) : CmmlToken :=
  .mk ['l', 'i', 's', 't'] [] .empty [.mk ciTag [] ⟨[letter], fun c member => by rwa [List.mem_singleton.mp member]⟩ []]

def listX : CmmlToken := listOf 'x' rfl
def listY : CmmlToken := listOf 'y' rfl

/-- Two names for one variable. -/
theorem encode_renamed_iff_lists :
    let one := encode (D := .whole) .harvest (.new empty) ⟨true⟩ (.root listX) none
    let two := encode (D := .whole) .harvest (.new one.1.encoder.meaningDictionary) ⟨true⟩ (.root listY) none
    one.1.encodedFormula = two.1.encodedFormula ∧ listX.equals listY = false := by
  intro one two
  have visits : dfs [.root listX] = [.root listX, ⟨.mk ciTag [] ⟨['x'], isspace_of_all rfl⟩ [], some listX, [1]⟩] := by
    rw [dfs_eq]; rfl
  have visits' : dfs [.root listY] = [.root listY, ⟨.mk ciTag [] ⟨['y'], isspace_of_all rfl⟩ [], some listY, [1]⟩] := by
    rw [dfs_eq]; rfl
  have few : two.1.encoder.meaningDictionary.map.length < 2 ^ 24 - 161 := by
    show (encodeLoop _ _ (dfs _) (startRound (.new (encodeLoop _ _ (dfs _) _).1.encoder.meaningDictionary)
      _)).1.encoder.meaningDictionary.map.length < _
    rw [visits, visits']
    decide
  have subtreesX : subtrees listX = [listX, .mk ciTag [] ⟨['x'], isspace_of_all rfl⟩ []] := rfl
  have subtreesY : subtrees listY = [listY, .mk ciTag [] ⟨['y'], isspace_of_all rfl⟩ []] := rfl
  obtain ⟨-, -, canonical, -⟩ := @encode_renamed_iff .whole empty one.1.encoder.meaningDictionary
    two.1.encoder.meaningDictionary listX listY ⟨⟨[], rfl⟩, ⟨[], rfl⟩, ⟨[], rfl⟩⟩ few
    (by unfold VariableFree; rw [subtreesX]; decide) (by unfold VariableFree; rw [subtreesY]; decide)
    (by rw [subtreesX]; decide) (by rw [subtreesY]; decide)
  refine ⟨canonical.mpr ⟨Equiv.swap ⟨['x'], by decide⟩ ⟨['y'], by decide⟩, ?_⟩, by decide⟩
  rw [foreachSubexpression, foreachSubexpression, visits, visits']
  refine .cons ⟨by decide, by decide, fun renameable => absurd renameable (by decide), fun _ => by decide⟩
    (.cons ⟨by decide, by decide, fun _ => (Equiv.swap_apply_left _ _).symm, fun kept => absurd ?_ kept⟩ .nil)
  decide

end ExpressionEncoder

end MathWebSearch
