/-
**The meaning dictionary and its file** (`common/types/IdDictionary.hpp` with `std::string` keys, as
`mws/index/MeaningDictionary.hpp` uses it).

* `save` writes the keys in the order of their ids, each closed by a NUL; `importFile` is the constructor that reads
  such a file line by line, with its end-of-file test.
* `putAll` — a sequence of `put` calls and the ids they return.
* `importFile_save` — reading a saved file puts the keys in the order of their ids.
* `putAll_saved` — the ids number the distinct keys, never change, and survive saving and loading; below
  `2 ^ 24 - 161` keys the decoder inverts the encoder before and after.
-/

import MathWebSearch.Index.ExpressionEncoder

namespace MathWebSearch

namespace IdDictionary

/-! ### The file -/

def nul : Char := '\x00'

/-- `save`: the bytes written. -/
def save (self : IdDictionary Str) : Str := self.getReverseLookupTable.flatMap fun key => key ++ [nul]

/-- `std::getline` with NUL as the delimiter: the line, the rest, and whether the end of the file was met. -/
def getline : Str → Str × Str × Bool
  | [] => ([], [], true)
  | char :: rest =>
    if char = nul then ([], rest, false)
    else
      let (line, rest, eof) := getline rest
      (char :: line, rest, eof)

theorem length_getline (input : Str) (more : (getline input).2.2 = false) :
    (getline input).2.1.length < input.length := by
  induction input with
  | nil => cases more
  | cons char rest ih =>
    rw [getline] at more ⊢
    split at more
    · rw [if_pos ‹_›]
      exact Nat.lt_succ_self _
    · rw [if_neg ‹_›]
      exact (ih more).trans (Nat.lt_succ_self _)

/-- The loop of the constructor: an empty line is skipped, with a warning unless it is the last one. -/
def importLoop (input : Str) (self : IdDictionary Str) : IdDictionary Str :=
  let self := if (getline input).1 ≠ [] then (self.put (getline input).1).1 else self
  if more : (getline input).2.2 = false then
    have : (getline input).2.1.length < input.length := length_getline input more
    importLoop (getline input).2.1 self
  else self
termination_by input.length

/-- `IdDictionary(path)`, on the contents of the file. -/
def importFile (input : Str) : IdDictionary Str := importLoop input empty

/-- A key in front of a NUL is one line. -/
theorem getline_key {key : Str} (free : nul ∉ key) (rest : Str) :
    getline (key ++ nul :: rest) = (key, rest, false) := by
  induction key with
  | nil =>
    rw [List.nil_append, getline]
    exact if_pos rfl
  | cons char others ih =>
    have other : char ≠ nul := fun same => free (same ▸ List.mem_cons_self)
    rw [List.cons_append, getline, if_neg other, ih fun member => free (List.mem_cons_of_mem _ member)]

/-! ### Sequences of `put` -/

section Sequences

variable {Key : Type} [DecidableEq Key]

/-- A sequence of `put` calls and the ids they return. -/
def putAll (self : IdDictionary Key) : List Key → IdDictionary Key × List Nat
  | [] => (self, [])
  | key :: rest =>
    let after := putAll (self.put key).1 rest
    (after.1, (self.put key).2 :: after.2)

theorem length_putAll (puts : List Key) : ∀ self : IdDictionary Key, (putAll self puts).2.length = puts.length := by
  induction puts with
  | nil => intro self; rfl
  | cons key rest ih => intro self; rw [putAll, List.length_cons, ih, List.length_cons]

theorem putAll_append (first second : List Key) : ∀ self : IdDictionary Key,
    putAll self (first ++ second) = ((putAll (putAll self first).1 second).1,
      (putAll self first).2 ++ (putAll (putAll self first).1 second).2) := by
  induction first with
  | nil => intro self; rfl
  | cons key rest ih =>
    intro self
    rw [List.cons_append, putAll, putAll, ih]
    rfl

/-- The keys in the order of their first occurrences, behind those given. -/
def concatAll (keys puts : List Key) : List Key := puts.foldl concatNew keys

theorem mem_concatNew {keys : List Key} {key other : Key} :
    other ∈ concatNew keys key ↔ other ∈ keys ∨ other = key := by
  unfold concatNew
  split
  · exact ⟨Or.inl, fun either => either.elim id fun same => same ▸ ‹_›⟩
  · rw [List.mem_append, List.mem_singleton]

theorem mem_concatAll (puts : List Key) : ∀ {keys : List Key} {key : Key},
    key ∈ concatAll keys puts ↔ key ∈ keys ∨ key ∈ puts := by
  induction puts with
  | nil => intro keys key; simp [concatAll]
  | cons first rest ih =>
    intro keys key
    rw [concatAll, List.foldl_cons, ← concatAll, ih, mem_concatNew, List.mem_cons, or_assoc]

theorem nodup_concatAll (puts : List Key) : ∀ {keys : List Key}, keys.Nodup → (concatAll keys puts).Nodup := by
  induction puts with
  | nil => intro keys nodup; exact nodup
  | cons first rest ih =>
    intro keys nodup
    refine ih ?_
    unfold concatNew
    split
    · exact nodup
    · exact List.Nodup.append nodup (List.nodup_singleton first) (by simpa using ‹first ∉ keys›)

theorem length_le_concatAll (puts : List Key) : ∀ keys : List Key,
    keys.length ≤ (concatAll keys puts).length := by
  induction puts with
  | nil => intro keys; exact le_rfl
  | cons first rest ih =>
    intro keys
    refine le_trans ?_ (ih (concatNew keys first))
    unfold concatNew
    split
    · exact le_rfl
    · exact (by rw [List.length_append]; omega)

theorem idxOf_concatNew {keys : List Key} {key : Key} (other : Key) (member : key ∈ keys) :
    (concatNew keys other).idxOf key = keys.idxOf key := by
  unfold concatNew
  split
  · rfl
  · exact List.idxOf_append_of_mem member

/-- A key keeps its place. -/
theorem idxOf_concatAll (puts : List Key) : ∀ {keys : List Key} {key : Key}, key ∈ keys →
    (concatAll keys puts).idxOf key = keys.idxOf key := by
  induction puts with
  | nil => intro keys key _; rfl
  | cons first rest ih =>
    intro keys key member
    rw [concatAll, List.foldl_cons, ← concatAll, ih (mem_concatNew.mpr (Or.inl member)),
      idxOf_concatNew first member]

/-- **A sequence of `put` calls numbers the keys** in the order in which they come, and every call returns the final
id of its key. -/
theorem putAll_spec (puts : List Key) : ∀ {self : IdDictionary Key} {keys : List Key}, self.Numbered keys →
    (concatAll keys puts).length < 2 ^ 32 - 1 →
    (putAll self puts).1.Numbered (concatAll keys puts) ∧
      (putAll self puts).2 = puts.map fun key => (concatAll keys puts).idxOf key + 1 := by
  induction puts with
  | nil => intro self keys numbered _; exact ⟨numbered, rfl⟩
  | cons key rest ih =>
    intro self keys numbered small
    rw [concatAll, List.foldl_cons, ← concatAll] at small ⊢
    obtain ⟨next, id⟩ := put_spec numbered (lt_of_le_of_lt (length_le_concatAll rest (concatNew keys key)) small)
    obtain ⟨last, ids⟩ := ih next small
    refine ⟨last, ?_⟩
    rw [putAll, List.map_cons, idxOf_concatAll rest (mem_concatNew.mpr (Or.inr rfl)), ← id, ← ids]

/-- The number of a key: its place in the list, from 1. -/
def numberOf (keys : List Key) (key : Key) : Nat := keys.idxOf key + 1

theorem numberOf_le {keys : List Key} {key : Key} (member : key ∈ keys) : numberOf keys key ≤ keys.length :=
  List.idxOf_lt_length_iff.mpr member

theorem numberOf_inj {keys : List Key} {key other : Key} (member : key ∈ keys)
    (same : numberOf keys key = numberOf keys other) : key = other :=
  (List.idxOf_inj member).mp (Nat.succ.inj same)

/-- A key keeps its number. -/
theorem numberOf_concatAll (puts : List Key) {keys : List Key} {key : Key} (member : key ∈ keys) :
    numberOf (concatAll keys puts) key = numberOf keys key := by
  rw [numberOf, idxOf_concatAll puts member, numberOf]

theorem ids_putAll {self : IdDictionary Key} {keys : List Key} (numbered : self.Numbered keys) (puts : List Key)
    (small : (concatAll keys puts).length < 2 ^ 32 - 1) :
    (putAll self puts).2 = puts.map (numberOf (concatAll keys puts)) := (putAll_spec puts numbered small).2

theorem get_eq_numberOf {self : IdDictionary Key} {keys : List Key} (numbered : self.Numbered keys) {key : Key}
    (member : key ∈ keys) : self.get key = numberOf keys key := by
  rw [get_spec numbered, if_pos member, numberOf]

/-- As many keys as there are different ones. -/
theorem length_concatAll (puts : List Key) : (concatAll [] puts).length = puts.toFinset.card := by
  rw [← List.toFinset_card_of_nodup (nodup_concatAll puts List.nodup_nil)]
  congr 1
  ext key
  rw [List.mem_toFinset, List.mem_toFinset, mem_concatAll]
  exact ⟨fun either => either.resolve_left List.not_mem_nil, Or.inr⟩

theorem concatAll_append (keys first second : List Key) :
    concatAll keys (first ++ second) = concatAll (concatAll keys first) second := List.foldl_append

/-- A key that was put stays in the map. -/
theorem mem_map_putAll (puts : List Key) : ∀ {self : IdDictionary Key} {key : Key},
    key ∈ self.map.map Prod.fst ∨ key ∈ puts → key ∈ (putAll self puts).1.map.map Prod.fst := by
  induction puts with
  | nil => intro self key either; exact either.resolve_right List.not_mem_nil
  | cons first rest ih =>
    intro self key either
    refine ih ?_
    rw [List.mem_cons, ← or_assoc] at either
    refine either.imp_left fun either => ?_
    by_cases same : key = first
    · subst same
      rw [put]
      split_ifs with missing
      · simp
      · -- a key with an id is in the map
        by_contra absent
        refine missing ?_
        rw [get, List.lookup_eq_none_iff.mpr, Option.getD_none]
        intro entry among
        exact bne_iff_ne.mpr fun equal => absent (List.mem_map.mpr ⟨entry, among, equal.symm⟩)
    · have old := either.resolve_right same
      rw [put]
      split_ifs
      · obtain ⟨entry, among, rfl⟩ := List.mem_map.mp old
        rw [List.map_append]
        exact List.mem_append_left _ (List.mem_map.mpr ⟨entry, List.mem_filter.mpr ⟨among, by simpa using same⟩, rfl⟩)
      · exact old

/-- **A dictionary with few entries has numbered its keys.** -/
theorem numbered_of_length {puts : List Key} (few : (putAll (empty : IdDictionary Key) puts).1.map.length < 2 ^ 32 - 1) :
    (putAll empty puts).1.Numbered (concatAll [] puts) ∧
      (concatAll [] puts).length = (putAll empty puts).1.map.length := by
  have inside : concatAll [] puts ⊆ (putAll (empty : IdDictionary Key) puts).1.map.map Prod.fst := by
    intro key member
    exact mem_map_putAll puts (Or.inr (((mem_concatAll puts).mp member).resolve_left List.not_mem_nil))
  have short := ((nodup_concatAll puts List.nodup_nil).subperm inside).length_le
  rw [List.length_map] at short
  have numbered := (putAll_spec puts numbered_empty (by omega)).1
  refine ⟨numbered, ?_⟩
  rw [numbered.map_eq, List.length_map, List.length_zipIdx]

/-- Putting the keys of a numbering again, one after the other, gives the numbering. -/
theorem concatAll_nodup (keys : List Key) : ∀ {front : List Key}, (front ++ keys).Nodup →
    concatAll front keys = front ++ keys := by
  induction keys with
  | nil => intro front _; rw [List.append_nil]; rfl
  | cons key rest ih =>
    intro front nodup
    have absent : key ∉ front := fun member =>
      (List.nodup_append'.mp nodup).2.2 member List.mem_cons_self
    have same : front ++ key :: rest = (front ++ [key]) ++ rest := by rw [List.append_assoc, List.singleton_append]
    rw [concatAll, List.foldl_cons, ← concatAll, concatNew, if_neg absent, same]
    exact ih (same ▸ nodup)

omit [DecidableEq Key] in
/-- A numbering determines the dictionary. -/
theorem Numbered.unique {first second : IdDictionary Key} {keys : List Key} (one : first.Numbered keys)
    (two : second.Numbered keys) : first = second := by
  obtain ⟨map, nextId⟩ := first
  obtain ⟨map', nextId'⟩ := second
  obtain rfl : map = map' := one.map_eq.trans two.map_eq.symm
  obtain rfl : nextId = nextId' := one.nextId_eq.trans two.nextId_eq.symm
  rfl

end Sequences

/-- Reading the keys of a file puts them one after the other. -/
theorem importLoop_keys (keys : List Str) : ∀ {self : IdDictionary Str},
    (∀ key ∈ keys, key ≠ [] ∧ nul ∉ key) →
    importLoop (keys.flatMap fun key => key ++ [nul]) self = (putAll self keys).1 := by
  induction keys with
  | nil =>
    intro self _
    rw [List.flatMap_nil, importLoop]
    rfl
  | cons key rest ih =>
    intro self good
    obtain ⟨nonempty, free⟩ := good key List.mem_cons_self
    rw [List.flatMap_cons, List.append_assoc, List.singleton_append, importLoop]
    simp only [getline_key free, ne_eq, nonempty, not_false_eq_true, if_true, dite_true]
    exact ih fun other member => good other (List.mem_cons_of_mem _ member)

/-- **A saved dictionary is read back as it was.** -/
theorem importFile_save {self : IdDictionary Str} {keys : List Str} (numbered : self.Numbered keys)
    (good : ∀ key ∈ keys, key ≠ [] ∧ nul ∉ key) : importFile self.save = self := by
  have small := numbered.small
  have again : concatAll [] keys = keys := concatAll_nodup keys (by simpa using numbered.nodup)
  rw [importFile, save, reverseLookup_spec numbered, importLoop_keys keys good]
  refine Numbered.unique ?_ numbered
  have spec := (putAll_spec keys numbered_empty (by rw [again]; exact small)).1
  rwa [again] at spec

/-! ### The dictionary as a whole -/

/-- The keys of a sequence of `put` calls on a fresh dictionary, in the order of their ids. -/
theorem putAll_empty {Key : Type} [DecidableEq Key] {puts : List Key} (small : puts.toFinset.card < 2 ^ 32 - 1) :
    ∃ keys, (∀ key, key ∈ keys ↔ key ∈ puts) ∧ keys.length = puts.toFinset.card ∧
      (putAll empty puts).1.Numbered keys ∧ (putAll empty puts).2 = puts.map (putAll empty puts).1.get := by
  have members : ∀ key, key ∈ concatAll [] puts ↔ key ∈ puts := by
    intro key
    rw [mem_concatAll]
    exact ⟨fun either => either.resolve_left List.not_mem_nil, Or.inr⟩
  have length := length_concatAll puts
  obtain ⟨numbered, ids⟩ := putAll_spec puts numbered_empty (length ▸ small)
  refine ⟨concatAll [] puts, members, length, numbered, ids.trans ?_⟩
  refine List.map_congr_left fun key member => ?_
  rw [get_spec numbered, if_pos ((members key).mpr member)]

/-- A numbering is a bijection between its keys and the numbers from 1. -/
theorem Numbered.bijOn_get {Key : Type} [DecidableEq Key] {self : IdDictionary Key} {keys : List Key}
    (numbered : self.Numbered keys) : Set.BijOn self.get {key | key ∈ keys} (Set.Icc 1 keys.length) := by
  have value : ∀ key ∈ keys, self.get key = keys.idxOf key + 1 := by
    intro key member
    rw [get_spec numbered, if_pos member]
  refine ⟨?_, ?_, ?_⟩
  · intro key member
    rw [value key member]
    exact ⟨Nat.le_add_left 1 _, List.idxOf_lt_length_iff.mpr member⟩
  · intro key member other member' same
    rw [value key member, value other member'] at same
    exact (List.idxOf_inj member).mp (Nat.succ.inj same)
  · intro id inside
    have bound : id - 1 < keys.length := by
      have := inside.1
      have := inside.2
      omega
    refine ⟨keys[id - 1], List.getElem_mem bound, ?_⟩
    rw [value _ (List.getElem_mem bound), numbered.nodup.idxOf_getElem]
    exact Nat.sub_add_cancel inside.1

/-- The table leads from an id back to its key. -/
theorem Numbered.reverseLookup_get {Key : Type} [DecidableEq Key] [Inhabited Key] {self : IdDictionary Key}
    {keys : List Key} (numbered : self.Numbered keys) {key : Key} (member : key ∈ keys) :
    reverseLookup self.getReverseLookupTable (self.get key) = some key := by
  rw [reverseLookup_spec numbered, get_spec numbered, if_pos member, reverseLookup,
    if_neg (show ¬keys.idxOf key + 1 < valueIdStart from Nat.not_lt.mpr (Nat.le_add_left 1 _))]
  show keys[keys.idxOf key]? = some key
  exact List.getElem?_idxOf member

/-- An id, once given, stays. -/
theorem get_putAll_front {front back : List Str} (small : (front ++ back).toFinset.card < 2 ^ 32 - 1) {key : Str}
    (member : key ∈ front) : (putAll empty front).1.get key = (putAll empty (front ++ back)).1.get key := by
  have smallFront : front.toFinset.card < 2 ^ 32 - 1 := by
    refine lt_of_le_of_lt (Finset.card_le_card ?_) small
    intro other inside
    rw [List.mem_toFinset] at inside ⊢
    exact List.mem_append_left _ inside
  obtain ⟨-, -, -, -, ids⟩ := putAll_empty smallFront
  obtain ⟨-, -, -, -, ids'⟩ := putAll_empty small
  nth_rewrite 1 [putAll_append] at ids'
  rw [ids, List.map_append] at ids'
  exact List.map_inj_left.mp (List.append_inj_left ids' (by simp)) key member

/-- Decoding what the encoder made of a meaning, with the table of a later dictionary. -/
theorem getMeaning_encoded {front back : List Str} {meaning : Str}
    (few : (front ++ meaning :: back).toFinset.card < 2 ^ 24 - 161) (arity : Nat) :
    (ExpressionDecoder.new (putAll empty (front ++ meaning :: back)).1).getMeaning
      (encodedToken (ExpressionEncoder.getConstantEncoding .harvest (.new (putAll empty front).1) meaning).2
        arity).id = some meaning := by
  have small : (front ++ meaning :: back).toFinset.card < 2 ^ 32 - 1 := by omega
  obtain ⟨keys, members, length, numbered, ids⟩ := putAll_empty small
  have member : meaning ∈ keys := (members meaning).mpr (by simp)
  have given : ((putAll empty front).1.put meaning).2 = (putAll empty (front ++ meaning :: back)).1.get meaning := by
    nth_rewrite 1 [putAll_append] at ids
    rw [List.map_append] at ids
    have lengths : (putAll empty front).2.length =
        (front.map (putAll empty (front ++ meaning :: back)).1.get).length := by
      rw [length_putAll, List.length_map]
    exact (List.cons.inj (List.append_inj_right ids lengths)).1
  have bound : (putAll empty (front ++ meaning :: back)).1.get meaning ≤ keys.length :=
    (numbered.bijOn_get.mapsTo member).2
  have id : (encodedToken (ExpressionEncoder.getConstantEncoding .harvest (.new (putAll empty front).1) meaning).2
      arity).id = constantIdMin + (putAll empty (front ++ meaning :: back)).1.get meaning := by
    show (constantIdMin + ((putAll empty front).1.put meaning).2) % 2 ^ 24 = _
    rw [given, Nat.mod_eq_of_lt (by unfold constantIdMin; omega)]
  rw [id, ExpressionDecoder.getMeaning, if_pos (Nat.le_add_right _ _), Nat.add_sub_cancel_left]
  exact numbered.reverseLookup_get member

/-- **Saving and loading the meaning dictionary preserves every id.** For every sequence of `put` calls with keys that
are not empty and hold no NUL:

* the ids number the distinct keys from 1 on, every call returns the id its key has at the end, and an id once given
  never changes;
* the reverse lookup table leads from every id back to its key;
* the dictionary read from the saved file has the same id, or none, for every string, and keeps agreeing with the old
  one under all further `put` calls;
* below `2 ^ 24 - 161` keys the decoder turns the id that the encoder gave to a meaning into the meaning, with the
  dictionary before saving and with the one loaded. -/
theorem putAll_saved (puts : List Str) (good : ∀ key ∈ puts, key ≠ [] ∧ nul ∉ key)
    (small : puts.toFinset.card < 2 ^ 32 - 1) :
    let dictionary := (putAll empty puts).1
    let loaded := importFile dictionary.save
    Set.BijOn dictionary.get {key | key ∈ puts} (Set.Icc 1 puts.toFinset.card) ∧
      (putAll empty puts).2 = puts.map dictionary.get ∧
      (∀ key, key ∉ puts → dictionary.get key = keyNotFound) ∧
      (∀ front back, puts = front ++ back → ∀ key ∈ front, (putAll empty front).1.get key = dictionary.get key) ∧
      (∀ key ∈ puts, reverseLookup dictionary.getReverseLookupTable (dictionary.put key).2 = some key) ∧
      (∀ key, loaded.get key = dictionary.get key) ∧
      (∀ more, (putAll loaded more).2 = (putAll dictionary more).2 ∧
        ∀ key, (putAll loaded more).1.get key = (putAll dictionary more).1.get key) ∧
      (puts.toFinset.card < 2 ^ 24 - 161 → ∀ front meaning back, puts = front ++ meaning :: back → ∀ arity,
        let id := (encodedToken (ExpressionEncoder.getConstantEncoding .harvest (.new (putAll empty front).1)
          meaning).2 arity).id
        (ExpressionDecoder.new dictionary).getMeaning id = some meaning ∧
          (ExpressionDecoder.new loaded).getMeaning id = some meaning) := by
  intro dictionary loaded
  obtain ⟨keys, members, length, numbered, ids⟩ := putAll_empty small
  have same : loaded = dictionary := importFile_save numbered fun key member => good key ((members key).mp member)
  have domain : {key | key ∈ puts} = {key | key ∈ keys} := by
    ext key
    exact (members key).symm
  rw [same]
  refine ⟨?_, ids, ?_, ?_, ?_, fun key => rfl, fun more => ⟨rfl, fun key => rfl⟩, ?_⟩
  · rw [domain, ← length]
    exact numbered.bijOn_get
  · intro key absent
    exact (get_eq_keyNotFound_iff numbered).mpr fun member => absent ((members key).mp member)
  · intro front back split key member
    subst split
    exact get_putAll_front small member
  · intro key member
    have found : dictionary.get key ≠ keyNotFound :=
      fun missing => (get_eq_keyNotFound_iff numbered).mp missing ((members key).mpr member)
    rw [put, if_neg found]
    exact numbered.reverseLookup_get ((members key).mpr member)
  · intro few front meaning back split arity
    subst split
    exact ⟨getMeaning_encoded few arity, getMeaning_encoded few arity⟩

/-- Three calls, one of them with a known key. -/
theorem putAll_saved_small :
    let puts : List Str := [['c', 'i', '#', 'x'], ['+', '#'], ['c', 'i', '#', 'x']]
    (putAll empty puts).2 = [1, 2, 1] ∧
      (importFile (putAll empty puts).1.save).get ['+', '#'] = (putAll empty puts).1.get ['+', '#'] :=
  ⟨by decide, (putAll_saved [['c', 'i', '#', 'x'], ['+', '#'], ['c', 'i', '#', 'x']] (by decide) (by decide)).2.2.2.2.2.1
    ['+', '#']⟩

end IdDictionary

end MathWebSearch
