/-
**Schemata with a relative cutoff** (`SchemaEngine::getSchemata` with `RELATIVE`).

Formulae share a schema when the same tokens are left of them, and each is cut at its own cutoff. The tokens say where a
tree ends, but not where it was cut: two trees may be cut to different trees that leave the same tokens.

* `length_cut_mono`, `cut_eq_of_length` — a higher cutoff keeps more nodes or the same tree.
* `keptSymbols` — the tree that is left, as far as the engine can see it.
* `instanceOf_iff` — **a tree is an instance of a schema** if it is cut to the same tree at the same cutoff.
* `allInstances_iff` — when all formulae are instances of their schemata.
* `not_allInstances` — two formulae that leave the same tokens and are cut to different trees.
-/

import MathWebSearch.Query.SchemaGroups

namespace MathWebSearch

open CmmlToken PartialTree

namespace SchemaEngine

section Deeper

variable {α : Type} {apply : α → Bool} {depth depth' : Nat}

/-! ### Higher cutoffs -/

theorem length_cutChildren_mono {level : Nat} (less : depth ≤ depth') {children : List (PartialTree α)}
    (each : ∀ child ∈ children,
      (word (cut apply depth level child)).length ≤ (word (cut apply depth' level child)).length) : ∀ first,
    (words (cutChildren apply depth level first children)).length ≤
      (words (cutChildren apply depth' level first children)).length := by
  induction children with
  | nil => intro first; rw [cutChildren_nil, cutChildren_nil]
  | cons child rest ih =>
    intro first
    rw [List.forall_mem_cons] at each
    rw [cutChildren_cons, cutChildren_cons, words_cons, words_cons, List.length_append, List.length_append]
    refine Nat.add_le_add ?_ (ih each.2 false)
    split_ifs with low high high
    · exact each.1
    · exact absurd (low.imp_left fun above => lt_of_lt_of_le above less) high
    · rw [word_stub]
      exact Nat.zero_le _
    · exact le_rfl

/-- A higher cutoff does not keep fewer nodes. -/
theorem length_cut_mono (less : depth ≤ depth') (tree : PartialTree α) : ∀ level,
    (word (cut apply depth level tree)).length ≤ (word (cut apply depth' level tree)).length := by
  induction tree with
  | stub => intro level; rw [cut_stub, cut_stub]
  | node label children ih =>
    intro level
    rw [cut_node, cut_node, word_node, word_node, List.length_cons, List.length_cons]
    exact Nat.succ_le_succ (length_cutChildren_mono less (fun child member => ih child member _) _)

theorem cut_eq_stub {level : Nat} {tree : PartialTree α} (empty : (word (cut apply depth level tree)).length = 0) :
    cut apply depth level tree = .stub := by
  cases tree with
  | stub => exact cut_stub _ _ _
  | node label children =>
    rw [cut_node, word_node] at empty
    cases empty

theorem cutChildren_eq_of_length {level : Nat} (less : depth ≤ depth') {children : List (PartialTree α)}
    (each : ∀ child ∈ children,
      (word (cut apply depth level child)).length = (word (cut apply depth' level child)).length →
        cut apply depth level child = cut apply depth' level child) : ∀ first,
    (words (cutChildren apply depth level first children)).length =
      (words (cutChildren apply depth' level first children)).length →
    cutChildren apply depth level first children = cutChildren apply depth' level first children := by
  induction children with
  | nil => intro first _; rw [cutChildren_nil, cutChildren_nil]
  | cons child rest ih =>
    intro first same
    rw [List.forall_mem_cons] at each
    have behind := @length_cutChildren_mono _ apply _ _ level less rest (fun child _ => length_cut_mono less child level) false
    have here := @length_cut_mono _ apply _ _ less child level
    rw [cutChildren_cons, cutChildren_cons, words_cons, words_cons, List.length_append, List.length_append] at same
    rw [cutChildren_cons, cutChildren_cons]
    split_ifs at same ⊢ with low high high
    · rw [each.1 (by omega), ih each.2 false (by omega)]
    · exact absurd (low.imp_left fun above => lt_of_lt_of_le above less) high
    · rw [word_stub, List.length_nil] at same
      rw [cut_eq_stub (show _ = 0 by omega), ih each.2 false (by omega)]
    · rw [ih each.2 false (by omega)]

/-- **A higher cutoff** that keeps no more nodes keeps the same tree. -/
theorem cut_eq_of_length (less : depth ≤ depth') (tree : PartialTree α) : ∀ level,
    (word (cut apply depth level tree)).length = (word (cut apply depth' level tree)).length →
      cut apply depth level tree = cut apply depth' level tree := by
  induction tree with
  | stub => intro level _; rw [cut_stub, cut_stub]
  | node label children ih =>
    intro level same
    rw [cut_node, cut_node, word_node, word_node, List.length_cons, List.length_cons, Nat.succ_inj] at same
    rw [cut_node, cut_node, cutChildren_eq_of_length less (fun child member => ih child member _) _ same]

end Deeper

/-! ### What the engine sees of a tree that is left -/

/-- The tree that is left, with the meaning and the number of child nodes of each node. -/
def keptSymbols (cutoff : Nat) (tree : CmmlToken) : PartialTree (Str × Nat) := map symbol (keptTree cutoff tree)

theorem keptSymbols_eq_stub_iff {cutoff : Nat} {tree : CmmlToken} : keptSymbols cutoff tree = .stub ↔ cutoff = 0 := by
  constructor
  · intro same
    by_contra positive
    rw [keptSymbols, keptTree_pos positive, skeleton_eq, cut_node, map_node] at same
    cases same
  · rintro rfl
    rw [keptSymbols, keptTree_zero, map_stub]

theorem schemaOf_eq (cutoff : Nat) (tree : CmmlToken) : schemaOf cutoff tree =
    (numbered (fun symbol => contentOf symbol.1) (keptSymbols cutoff tree) (if cutoff = 0 then 0 else 1)).1 := by
  rw [keptSymbols, numbered_relabel]
  rfl

/-- The schema is that of what the engine sees. -/
theorem schemaOf_congr {cutoff cutoff' : Nat} {tree tree' : CmmlToken}
    (same : keptSymbols cutoff tree = keptSymbols cutoff' tree') : schemaOf cutoff tree = schemaOf cutoff' tree' := by
  have zero : cutoff = 0 ↔ cutoff' = 0 := by
    rw [← @keptSymbols_eq_stub_iff cutoff tree, same, keptSymbols_eq_stub_iff]
  rw [schemaOf_eq, schemaOf_eq, same]
  exact congrArg (fun number => (numbered _ _ number).1) (if_congr zero rfl rfl)

/-- **Higher cutoffs** of one tree that leave as many tokens leave the same tree. -/
theorem keptSymbols_eq_of_word {cutoff cutoff' : Nat} {tree : CmmlToken}
    (same : (word (keptSymbols cutoff tree)).length = (word (keptSymbols cutoff' tree)).length) :
    keptSymbols cutoff tree = keptSymbols cutoff' tree := by
  have length : ∀ cutoff, (word (keptSymbols cutoff tree)).length = (word (keptTree cutoff tree)).length := fun cutoff => by
    rw [keptSymbols, PartialTree.word_map, List.length_map]
  have positive : ∀ {cutoff}, cutoff ≠ 0 → (word (keptTree cutoff tree)).length ≠ 0 := fun nonzero => by
    rw [keptTree_pos nonzero, skeleton_eq, cut_node, word_node]
    exact Nat.succ_ne_zero _
  rw [length, length] at same
  by_cases zero : cutoff = 0
  · have zero' : cutoff' = 0 := by
      by_contra nonzero
      rw [zero, keptTree_zero, word_stub] at same
      exact positive nonzero same.symm
    rw [zero, zero']
  · have nonzero : cutoff' ≠ 0 := fun zero' => by
      rw [zero', keptTree_zero, word_stub] at same
      exact positive zero same
    rw [keptTree_pos zero, keptTree_pos nonzero] at same
    rw [keptSymbols, keptSymbols, keptTree_pos zero, keptTree_pos nonzero]
    rcases Nat.le_total cutoff cutoff' with less | less
    · rw [cut_eq_of_length less _ 0 same]
    · rw [cut_eq_of_length less _ 0 same.symm]

section Instances

variable {depth : Nat} {assignment : Str → CmmlToken}

theorem cutChildren_of_equals {level : Nat} {children : List CmmlToken} (each : ∀ child ∈ children, ∀ number other,
      other.VariableFree → (substitute assignment (readAt depth level child number).1.toCmml).equals other = true →
        map symbol (cut headed depth level other.skeleton) = map symbol (cut headed depth level child.skeleton)) :
    ∀ (first : Bool) (number : Nat) (others : List CmmlToken), children.length = others.length →
      (∀ other ∈ others, other.VariableFree) →
      equalsAll (((readAll depth level first children number).1.map SchemaTree.toCmml).map (substitute assignment)) others = true →
      (cutChildren headed depth level first (others.map skeleton)).map (map symbol) =
        (cutChildren headed depth level first (children.map skeleton)).map (map symbol) := by
  induction children with
  | nil =>
    intro first number others length _ _
    obtain rfl := List.eq_nil_of_length_eq_zero length.symm
    rfl
  | cons child rest ih =>
    intro first number others length free same
    cases others with
    | nil => cases length
    | cons other others =>
      rw [List.forall_mem_cons] at each free
      rw [readAll_cons, List.map_cons, List.map_cons, equalsAll, Bool.and_eq_true, readChild] at same
      rw [List.map_cons, List.map_cons, cutChildren_cons, cutChildren_cons, List.map_cons, List.map_cons,
        ih each.2 false _ others (Nat.succ.inj length) free.2 same.2]
      split_ifs at same ⊢
      · rw [each.1 number other free.1 same.1]
      · rfl

/-- A tree that the schema is with something in place of the variables is cut like the tree of the schema. -/
theorem cut_of_equals (tree : CmmlToken) : tree.Plain → tree.VariableFree → ∀ level number other, other.VariableFree →
    (substitute assignment (readAt depth level tree number).1.toCmml).equals other = true →
      map symbol (cut headed depth level other.skeleton) = map symbol (cut headed depth level tree.skeleton) := by
  induction tree with
  | mk tag attributes text children ih =>
    intro plain free level number other free' same
    have constant := free _ (mem_subtrees_self _)
    have here := plain _ (mem_subtrees_self _)
    have notVar := @isVar_readAt depth _ here constant level number
    rw [toCmml_readAt here] at notVar same
    rw [substitute, if_neg (by rw [notVar]; exact Bool.false_ne_true), substituteAll_eq,
      equals_eq _ _ ((getType_shown _ _ _).trans constant) (free' _ (mem_subtrees_self _)), Bool.and_eq_true,
      decide_eq_true_iff] at same
    obtain ⟨symbols, below⟩ := same
    have meaning : (CmmlToken.mk tag attributes text children).getMeaning = other.getMeaning :=
      (getMeaning_shown _ _).symm.trans (congrArg Prod.fst symbols)
    have length : children.length = other.getChildNodes.length := by
      have counts : List.length (List.map _ (List.map _ _)) = other.getChildNodes.length := congrArg Prod.snd symbols
      rw [List.length_map, List.length_map, length_readAll] at counts
      exact counts
    have isHead : headed other = headed (.mk tag attributes text children) := congrArg meansApply meaning.symm
    have label : other.symbol = (CmmlToken.mk tag attributes text children).symbol := Prod.ext meaning.symm length.symm
    have inner := cutChildren_of_equals
      (fun child member number other => ih child member (plain.child member) (free.child member) (level + 1) number other)
      _ _ _ length (fun child member => free'.child member) below
    rw [skeleton_eq, skeleton_eq, cut_node, cut_node, map_node, map_node, label, isHead, getChildNodes_mk]
    exact congrArg _ inner

/-- **Instances of a schema.** -/
theorem instanceOf_iff {cutoff : Nat} {tree tree' : CmmlToken} (plain : tree.Plain) (plain' : tree'.Plain)
    (free : tree.VariableFree) (free' : tree'.VariableFree) (few : (subtrees tree).length < 2 ^ 32) :
    InstanceOf (schemaOf cutoff tree').toCmml tree ↔ keptSymbols cutoff tree = keptSymbols cutoff tree' := by
  constructor
  · rintro ⟨assignment, -, same⟩
    by_cases zero : cutoff = 0
    · rw [keptSymbols_eq_stub_iff.mpr zero, keptSymbols_eq_stub_iff.mpr zero]
    · rw [schemaOf, keptTree_pos zero, if_neg zero] at same
      rw [keptSymbols, keptSymbols, keptTree_pos zero, keptTree_pos zero]
      exact cut_of_equals tree' plain' free' 0 1 tree free same
  · intro same
    rw [← schemaOf_congr same]
    exact (generalises_schemaOf plain free cutoff).hasInstance
      (lt_of_le_of_lt (length_qvarNames_schemaOf plain free cutoff) few)

end Instances

/-! ### Requests -/

/-- All formulae that a schema lists are instances of it, whatever the limit. -/
def AllInstances (engine : SchemaEngine) (order : Arrangement) (depth : Nat) (formulae : List (EncodedFormula × CmmlToken)) :
    Prop :=
  ∀ maxTotal, ∃ result, engine.getSchemata order formulae maxTotal depth = .ok result ∧
    ∀ sch ∈ result.schemata, ∀ i ∈ sch.formulae, ∀ pair, formulae[i]? = some pair → InstanceOf sch.root pair.2

/-- Formulae of which the same nodes are left, in pre-order, are cut to the same tree. -/
def CutAlike (engine : SchemaEngine) (depth : Nat) (formulae : List (EncodedFormula × CmmlToken)) : Prop :=
  ∀ pair ∈ formulae, ∀ pair' ∈ formulae,
    word (keptSymbols (engine.cutoff depth pair.2) pair.2) = word (keptSymbols (engine.cutoff depth pair'.2) pair'.2) →
      keptSymbols (engine.cutoff depth pair.2) pair.2 = keptSymbols (engine.cutoff depth pair'.2) pair'.2

section Request

open ExpressionEncoder

variable {D : Doubles} {last : MeaningDictionary} {formulae : List (EncodedFormula × CmmlToken)} {depth : Nat}

/-- The same tokens are left if the same nodes are. -/
theorem reduceEncoded_eq_iff {heuristic : CutoffHeuristic} {pair pair' : EncodedFormula × CmmlToken} (read : Read D last pair)
    (read' : Read D last pair') (cutoff cutoff' : Nat) :
    (⟨.new last, heuristic⟩ : SchemaEngine).reduceEncoded pair.1 cutoff =
        (⟨.new last, heuristic⟩ : SchemaEngine).reduceEncoded pair'.1 cutoff' ↔
      word (keptSymbols cutoff pair.2) = word (keptSymbols cutoff' pair'.2) := by
  rw [reduceEncoded_eq_iff_symbols read read', keptSymbols, keptSymbols, PartialTree.word_map, PartialTree.word_map]

/-- **Formulae are instances of their schemata** if those of which the same nodes are left are cut to the same tree. The
formulae are encodings, over one dictionary, of trees without variables and with plain tags; their numbers and those of
the variables fit into a `uint32_t`. -/
theorem allInstances_iff (encodings : ∀ pair ∈ formulae, Encoding D last pair ∧ Narrowed pair.2 ∧ pair.2.Plain)
    (few : last.map.length < 2 ^ 24 - 161) (small : formulae.length ≤ 2 ^ 32)
    (sizes : ∀ pair ∈ formulae, (subtrees pair.2).length < 2 ^ 32) (heuristic : CutoffHeuristic) (order : Arrangement) :
    AllInstances ⟨.new last, heuristic⟩ order depth formulae ↔ CutAlike ⟨.new last, heuristic⟩ depth formulae := by
  have read : ∀ pair ∈ formulae, Read D last pair := fun pair member =>
    (encodings pair member).1.read (encodings pair member).2.1 few
  have spelt : (⟨.new last, heuristic⟩ : SchemaEngine).SpeltAll (code (namesIn last)) formulae := fun pair member =>
    (read pair member).spelt heuristic
  have instances : ∀ pair ∈ formulae, ∀ pair' ∈ formulae, ∀ cutoff,
      InstanceOf (schemaOf cutoff pair'.2).toCmml pair.2 ↔ keptSymbols cutoff pair.2 = keptSymbols cutoff pair'.2 :=
    fun pair member pair' member' cutoff => instanceOf_iff (encodings pair member).2.2 (encodings pair' member').2.2
      (encodings pair member).2.1.free (encodings pair' member').2.1.free (sizes pair member)
  constructor
  · intro all pair member pair' member' same
    obtain ⟨result, got, listed⟩ := all 0
    obtain ⟨_, got', shared, rooted⟩ := @getSchemata_shared _ _ _ depth spelt small order 0
    obtain rfl := Except.ok.inj (got.symm.trans got')
    obtain ⟨i, found⟩ := List.getElem?_of_mem member
    obtain ⟨j, found'⟩ := List.getElem?_of_mem member'
    have inside := (shared.partition rfl).mem_iff.mpr (List.mem_range.mpr (List.getElem?_eq_some_iff.mp found).1)
    obtain ⟨sch, among, belongs⟩ := List.mem_flatMap.mp inside
    have belongs' := (shared.together sch among i j pair pair' found found' belongs).mpr
      ((reduceEncoded_eq_iff (read pair' member') (read pair member) _ _).mpr same.symm)
    obtain ⟨k, belongs'', other, found'', root⟩ := rooted sch among
    have member'' := List.mem_of_getElem? found''
    -- both are cut at the cutoff of a third formula, whose tree the schema is
    have third : ∀ {l : Nat} {some : EncodedFormula × CmmlToken}, formulae[l]? = .some some → l ∈ sch.formulae →
        keptSymbols ((⟨.new last, heuristic⟩ : SchemaEngine).cutoff depth some.2) some.2 =
          keptSymbols ((⟨.new last, heuristic⟩ : SchemaEngine).cutoff depth other.2) other.2 := by
      intro l some found belongs
      have isMember := List.mem_of_getElem? found
      have isInstance := listed sch among l belongs some found
      rw [root, instances some isMember other member''] at isInstance
      have left := (shared.together sch among l k some other found found'' belongs).mp belongs''
      have words := (reduceEncoded_eq_iff (read other member'') (read some isMember) _ _).mp left
      rw [← isInstance] at words ⊢
      exact keptSymbols_eq_of_word (congrArg List.length words.symm)
    exact (third found belongs).trans (third found' belongs').symm
  · intro alike maxTotal
    obtain ⟨result, got, shared, rooted⟩ := @getSchemata_shared _ _ _ depth spelt small order maxTotal
    refine ⟨result, got, fun sch among i belongs pair found => ?_⟩
    have member := List.mem_of_getElem? found
    obtain ⟨j, belongs', other, found', root⟩ := rooted sch among
    have member' := List.mem_of_getElem? found'
    have left := (shared.together sch among i j pair other found found' belongs).mp belongs'
    have words := (reduceEncoded_eq_iff (read other member') (read pair member) _ _).mp left
    have same := alike other member' pair member words
    rw [root, schemaOf_congr same, instances pair member pair member]

/-! ### Two trees with the same tokens -/

/-- `r(p(a(u)), b(y(v), z))`. -/
def crossed : CmmlToken :=
  branch 'r' [branch 'p' [branch 'a' [branch 'u' []]], branch 'b' [branch 'y' [branch 'v' []], branch 'z' []]]

/-- `r(p(a(b(u, v))), y(z))`. -/
def nested : CmmlToken :=
  branch 'r' [branch 'p' [branch 'a' [branch 'b' [branch 'u' [], branch 'v' []]]], branch 'y' [branch 'z' []]]

/-- The first tree, encoded into an empty dictionary. -/
def encodedCrossed : Round .whole × Int := encode .harvest (.new .empty) ⟨false⟩ (.root crossed) none

/-- The second tree, encoded by the same encoder. -/
def encodedNested : Round .whole × Int := encode .harvest encodedCrossed.1.encoder ⟨false⟩ (.root nested) none

/-- The dictionary that the encoder leaves. -/
def crossedNames : MeaningDictionary := encodedNested.1.encoder.meaningDictionary

/-- The formulae with their trees. -/
def crossedFormulae : List (EncodedFormula × CmmlToken) :=
  [(encodedCrossed.1.encodedFormula, crossed), (encodedNested.1.encodedFormula, nested)]

theorem encodedCrossed_eq : encodedCrossed = encodeLoop .harvest ⟨false⟩ (preorder crossed none []) ((new .empty).startRound none) := by
  rw [encodedCrossed, encode, ← foreachSubexpression_eq]
  rfl

theorem encodedNested_eq :
    encodedNested = encodeLoop .harvest ⟨false⟩ (preorder nested none []) (encodedCrossed.1.encoder.startRound none) := by
  rw [encodedNested, encode, ← foreachSubexpression_eq]
  rfl

theorem encodings_crossed : (∀ pair ∈ crossedFormulae, Encoding .whole crossedNames pair ∧ Narrowed pair.2 ∧ pair.2.Plain) ∧
    crossedNames.map.length < 2 ^ 24 - 161 := by
  have free : crossed.VariableFree := by unfold VariableFree; decide +kernel
  have free' : nested.VariableFree := by unfold VariableFree; decide +kernel
  have plain : ∀ tree, (∀ inner ∈ subtrees tree, '#' ∉ inner.getTag ∧ inner.getTag.take 2 ≠ ['m', ':']) → tree.Plain :=
    fun tree each inner inside => ⟨(each inner inside).1, (each inner inside).2⟩
  have before := @meaningDictionary_encode .whole ⟨false⟩ (.new .empty) _ (constants_of_variableFree free)
  have behind := @meaningDictionary_encode .whole ⟨false⟩ encodedCrossed.1.encoder _ (constants_of_variableFree free')
  refine ⟨List.forall_mem_cons.mpr ⟨⟨⟨.new .empty, ⟨⟨[], rfl⟩, _, behind⟩, ?_, rfl⟩, ⟨free, ?_⟩, plain _ ?_⟩,
    List.forall_mem_singleton.mpr ⟨⟨encodedCrossed.1.encoder, ⟨⟨_, before⟩, [], rfl⟩, ?_, rfl⟩, ⟨free', ?_⟩, plain _ ?_⟩⟩, ?_⟩
  · show encodedCrossed.2 = 0
    rw [encodedCrossed_eq]
    decide +kernel
  · decide +kernel
  · decide +kernel
  · show encodedNested.2 = 0
    rw [encodedNested_eq, encodedCrossed_eq]
    decide +kernel
  · decide +kernel
  · decide +kernel
  · rw [crossedNames, encodedNested_eq, encodedCrossed_eq]
    decide +kernel

/-- At 100 percent both trees leave `r`, `p`, `a`, `b`, `y` and `z`, and one of them is no instance of the schema. -/
theorem not_allInstances : ¬AllInstances ⟨.new crossedNames, .relative⟩ largestFirst 100 crossedFormulae := by
  obtain ⟨encodings, few⟩ := encodings_crossed
  have sizes : ∀ pair ∈ crossedFormulae, (subtrees pair.2).length < 2 ^ 32 :=
    List.forall_mem_cons.mpr ⟨by decide +kernel, List.forall_mem_singleton.mpr (by decide +kernel)⟩
  rw [allInstances_iff encodings few (by decide) sizes]
  intro alike
  have same := alike (encodedCrossed.1.encodedFormula, crossed) List.mem_cons_self
    (encodedNested.1.encodedFormula, nested) (List.mem_cons_of_mem _ List.mem_cons_self)
  have cutoff : (⟨.new crossedNames, .relative⟩ : SchemaEngine).cutoff 100 crossed = 3 := by decide +kernel
  have cutoff' : (⟨.new crossedNames, .relative⟩ : SchemaEngine).cutoff 100 nested = 4 := by decide +kernel
  rw [cutoff, cutoff'] at same
  have roots := congrArg SchemaTree.toCmml (schemaOf_congr (same (by decide +kernel)))
  have firsts := congrArg (fun root => root.getChildNodes.map fun child => (subtrees child).length) roots
  exact absurd firsts (by decide +kernel)

end Request

end SchemaEngine

end MathWebSearch
