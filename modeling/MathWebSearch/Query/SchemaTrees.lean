/-
**Schemata as trees** (`SchemaEngine::getSchemata` over encodings of trees).

The formulae of a request are the encodings of its trees over one dictionary. What is kept of such a formula is the word
of the tree cut at the cutoff, and what is read back is the cut tree with variables.

* `skeleton` — a `CmmlToken` as a tree with labels.
* `Spelt` — a formula that the decoder of the engine reads as a tree; `Encodings.spelt` says that encodings are.
* `reduceEncoded_spelt`, `decodeEncoded_spelt` — the two machines on such formulae.
* `getSchemata_spec` — **the schemata of a request**: one for every word that is left, with all formulae that leave it.
-/

import MathWebSearch.Index.EncodingInjective
import MathWebSearch.Library.Grouping
import MathWebSearch.Query.SchemaHeads

namespace MathWebSearch

open CmmlToken PartialTree PrefixCode

namespace CmmlToken

/-! ### Trees with labels -/

mutual

/-- The tree in which every node has the subtree at it as its label. -/
def skeleton : CmmlToken → PartialTree CmmlToken
  | .mk tag attributes text children => .node (.mk tag attributes text children) (skeletons children)

/-- Trees one by one. -/
def skeletons : List CmmlToken → List (PartialTree CmmlToken)
  | [] => []
  | child :: rest => skeleton child :: skeletons rest

end

theorem skeletons_eq (children : List CmmlToken) : skeletons children = children.map skeleton := by
  induction children with
  | nil => rfl
  | cons child rest ih => rw [skeletons, ih, List.map_cons]

theorem skeleton_eq (token : CmmlToken) : skeleton token = .node token (token.getChildNodes.map skeleton) := by
  cases token with
  | mk tag attributes text children => rw [skeleton, skeletons_eq, getChildNodes_mk]

theorem words_skeletons {children : List CmmlToken} (each : ∀ child ∈ children, word (skeleton child) = subtrees child) :
    words (children.map skeleton) = children.flatMap subtrees := by
  induction children with
  | nil => exact words_nil
  | cons child rest ih =>
    rw [List.forall_mem_cons] at each
    rw [List.map_cons, words_cons, each.1, ih each.2, List.flatMap_cons]

theorem word_skeleton (token : CmmlToken) : word (skeleton token) = subtrees token := by
  induction token with
  | mk tag attributes text children ih =>
    rw [skeleton_eq, word_node, subtrees_eq, getChildNodes_mk, words_skeletons ih]

theorem whole_skeleton (token : CmmlToken) : Whole (skeleton token) := by
  induction token with
  | mk tag attributes text children ih =>
    rw [skeleton_eq, whole_iff, getChildNodes_mk]
    exact List.forall_mem_map.mpr ih

/-- With labels that say how many child nodes there are, the tree is ranked. -/
theorem ranked_skeleton {α : Type} {f : CmmlToken → α} {ar : α → Nat} (token : CmmlToken) :
    (∀ inner ∈ subtrees token, ar (f inner) = inner.getChildNodes.length) → Ranked ar (map f (skeleton token)) := by
  induction token with
  | mk tag attributes text children ih =>
    intro arities
    rw [skeleton_eq, map_node, getChildNodes_mk]
    refine .node ?_ ?_
    · rw [List.length_map, List.length_map]
      exact (arities _ (mem_subtrees_self _)).symm
    · rw [List.map_map]
      refine List.forall_mem_map.mpr fun child member => ih child member fun inner inside => ?_
      exact arities inner (mem_subtrees_of_child member inside)

end CmmlToken

namespace SchemaEngine

section Labels

variable {α β : Type}

/-! ### Labels that agree -/

theorem cutChildren_congr {apply apply' : α → Bool} {depth level : Nat} {children : List (PartialTree α)}
    (each : ∀ child ∈ children, cut apply depth level child = cut apply' depth level child) :
    ∀ first, cutChildren apply depth level first children = cutChildren apply' depth level first children := by
  induction children with
  | nil => intro first; rw [cutChildren_nil, cutChildren_nil]
  | cons child rest ih =>
    intro first
    rw [List.forall_mem_cons] at each
    rw [cutChildren_cons, cutChildren_cons, each.1, ih each.2]

theorem cut_congr {apply apply' : α → Bool} {depth : Nat} (tree : PartialTree α) : ∀ level,
    (∀ label ∈ word tree, apply label = apply' label) → cut apply depth level tree = cut apply' depth level tree := by
  induction tree with
  | stub => intro level _; rw [cut_stub, cut_stub]
  | node label children ih =>
    intro level same
    rw [word_node] at same
    rw [cut_node, cut_node, same label List.mem_cons_self]
    refine congrArg _ (cutChildren_congr (fun child member => ih child member _ fun inner inside => ?_) _)
    exact same inner (List.mem_cons_of_mem _ (mem_words.mpr ⟨child, member, inside⟩))

theorem numberedAll_congr {shown shown' : α → β} {trees : List (PartialTree α)}
    (each : ∀ tree ∈ trees, ∀ number, numbered shown tree number = numbered shown' tree number) :
    ∀ number, numberedAll shown trees number = numberedAll shown' trees number := by
  induction trees with
  | nil => intro number; rw [numberedAll_nil, numberedAll_nil]
  | cons tree rest ih =>
    intro number
    rw [List.forall_mem_cons] at each
    rw [numberedAll_cons, numberedAll_cons, each.1, ih each.2]

theorem numbered_congr {shown shown' : α → β} (tree : PartialTree α) :
    (∀ label ∈ word tree, shown label = shown' label) → ∀ number, numbered shown tree number = numbered shown' tree number := by
  induction tree with
  | stub => intro _ number; rw [numbered_stub, numbered_stub]
  | node label children ih =>
    intro same number
    rw [word_node] at same
    have below := numberedAll_congr (fun child member => ih child member fun inner inside =>
      same inner (List.mem_cons_of_mem _ (mem_words.mpr ⟨child, member, inside⟩))) number
    rw [numbered_node, numbered_node, same label List.mem_cons_self, below]

end Labels

/-! ### What is kept of a tree -/

/-- The tag of a node begins with `apply`, as far as the engine can see. -/
def headed (inner : CmmlToken) : Bool := meansApply inner.getMeaning

/-- What is kept of a tree at a cutoff. -/
def keptTree (cutoff : Nat) (tree : CmmlToken) : PartialTree CmmlToken :=
  if cutoff = 0 then .stub else cut headed cutoff 0 tree.skeleton

/-- The schema of a tree at a cutoff. The variable in place of a whole tree has the number 0, others are numbered from
1 on. -/
def schemaOf (cutoff : Nat) (tree : CmmlToken) : SchemaTree (Str × TextContent) :=
  (numbered (fun inner => contentOf inner.getMeaning) (keptTree cutoff tree) (if cutoff = 0 then 0 else 1)).1

theorem keptTree_pos {cutoff : Nat} (positive : cutoff ≠ 0) (tree : CmmlToken) :
    keptTree cutoff tree = cut headed cutoff 0 tree.skeleton := if_neg positive

theorem keptTree_zero (tree : CmmlToken) : keptTree 0 tree = .stub := if_pos rfl

theorem word_keptTree_subset (cutoff : Nat) (tree : CmmlToken) : word (keptTree cutoff tree) ⊆ subtrees tree := by
  rw [← word_skeleton]
  by_cases zero : cutoff = 0
  · rw [zero, keptTree_zero, word_stub]
    exact List.nil_subset _
  · rw [keptTree_pos zero]
    exact word_cut_subset _ 0

section Spelling

variable {self : SchemaEngine} {enc : Str × Nat → EncodedToken} {expr : EncodedFormula} {tree : CmmlToken}

/-- The decoder reads the formula as the tree. -/
structure Spelt (engine : SchemaEngine) (enc : Str × Nat → EncodedToken) (expr : EncodedFormula) (tree : CmmlToken) :
    Prop where
  formula : expr = (symbols tree).map enc
  arity : ∀ inner ∈ subtrees tree, (enc inner.symbol).arity = inner.getChildNodes.length
  meaning : ∀ inner ∈ subtrees tree, engine.decoder.getMeaning (enc inner.symbol).id = some inner.getMeaning

theorem Spelt.meaningOf (spelt : self.Spelt enc expr tree) {inner : CmmlToken} (inside : inner ∈ subtrees tree) :
    self.meaningOf (enc inner.symbol) = inner.getMeaning := by
  rw [SchemaEngine.meaningOf, spelt.meaning inner inside, Option.getD_some]

/-- The encoded tokens of a tree. -/
theorem Spelt.word_map (spelt : self.Spelt enc expr tree) : word (map (enc ∘ symbol) tree.skeleton) = expr := by
  rw [PartialTree.word_map, word_skeleton, spelt.formula, symbols, List.map_map]

theorem Spelt.knows (spelt : self.Spelt enc expr tree) : self.Knows expr := by
  intro tok member
  rw [spelt.formula, symbols, List.map_map] at member
  obtain ⟨inner, inside, rfl⟩ := List.mem_map.mp member
  rw [Function.comp_apply, spelt.meaning inner inside]
  rfl

theorem Spelt.ranked (spelt : self.Spelt enc expr tree) : Ranked EncodedToken.arity (map (enc ∘ symbol) tree.skeleton) :=
  ranked_skeleton tree spelt.arity

theorem Spelt.cut_eq (spelt : self.Spelt enc expr tree) (depth : Nat) :
    cut (meansApply ∘ self.meaningOf) depth 0 (map (enc ∘ symbol) tree.skeleton) =
      map (enc ∘ symbol) (cut headed depth 0 tree.skeleton) := by
  rw [cut_map]
  refine congrArg _ (cut_congr _ 0 fun inner inside => ?_)
  rw [word_skeleton] at inside
  exact congrArg meansApply (spelt.meaningOf inside)

/-- **What is kept** of the formula of a tree. -/
theorem reduceEncoded_spelt (spelt : self.Spelt enc expr tree) (cutoff : Nat) :
    self.reduceEncoded expr cutoff = .ok ((word (keptTree cutoff tree)).map (enc ∘ symbol)) := by
  by_cases zero : cutoff = 0
  · subst zero
    rw [keptTree_zero, word_stub, List.map_nil]
    unfold reduceEncoded reduceFormula
    cases expr <;> rfl
  · have reduced := reduceFormula_word (whole_skeleton tree).map spelt.ranked
      (spelt.word_map.symm ▸ spelt.knows.known) zero
    rw [spelt.word_map, spelt.cut_eq, PartialTree.word_map] at reduced
    rw [keptTree_pos zero]
    exact reduced

/-- **What is read back** of it. -/
theorem decodeEncoded_spelt (spelt : self.Spelt enc expr tree) (cutoff : Nat) :
    self.decodeEncoded ((word (keptTree cutoff tree)).map (enc ∘ symbol)) cutoff = .ok (schemaOf cutoff tree) := by
  by_cases zero : cutoff = 0
  · subst zero
    rw [schemaOf, keptTree_zero, word_stub, List.map_nil, if_pos rfl, numbered_stub]
    rfl
  · have decoded := @decodeFormula_word _ _ _ _ _ _ _ cutoff _ (whole_skeleton tree).map spelt.ranked
      (spelt.word_map.symm ▸ spelt.knows.known) (spelt.word_map.symm ▸ spelt.knows.printed)
    rw [spelt.cut_eq, PartialTree.word_map, numbered_relabel, ← keptTree_pos zero] at decoded
    have labels : ∀ inner ∈ word (keptTree cutoff tree),
        ((contentOf ∘ self.meaningOf) ∘ enc ∘ symbol) inner = contentOf inner.getMeaning := fun inner inside =>
      congrArg contentOf (spelt.meaningOf (word_keptTree_subset cutoff tree inside))
    rw [numbered_congr _ labels] at decoded
    rw [schemaOf, if_neg zero]
    exact decoded

end Spelling

/-! ### Encodings -/

section Encoded

open ExpressionEncoder IdDictionary

/-- The formula was written for the tree by a harvest encoder without renaming; `last` is what its dictionary has become
since. -/
def Encoding (D : Doubles) (last : MeaningDictionary) (pair : EncodedFormula × CmmlToken) : Prop :=
  ∃ encoder, Putting D ⟨false⟩ encoder (.root pair.2) last ∧
    (encode (D := D) .harvest encoder ⟨false⟩ (.root pair.2) none).2 = 0 ∧
    pair.1 = (encode (D := D) .harvest encoder ⟨false⟩ (.root pair.2) none).1.encodedFormula

/-- A tree of constants with 255 child nodes at most. -/
structure Narrowed (tree : CmmlToken) : Prop where
  free : tree.VariableFree
  narrow : ∀ inner ∈ subtrees tree, inner.getChildNodes.length ≤ 255

theorem Narrowed.countable {tree : CmmlToken} (narrowed : Narrowed tree) : Countable tree :=
  fun inner inside => lt_of_le_of_lt (narrowed.narrow inner inside) (by decide)

/-- The names of a dictionary. -/
abbrev namesIn (last : MeaningDictionary) : List Str := last.map.map Prod.fst

/-- The decoder of the dictionary reads the id of a name. -/
theorem getMeaning_code {last : MeaningDictionary} (roomy : Roomy (namesIn last)) (numbered : last.Numbered (namesIn last))
    {name : Str} (member : name ∈ namesIn last) (arity : Nat) :
    (ExpressionDecoder.new last).getMeaning (code (namesIn last) (name, arity)).id = some name := by
  rw [roomy.code_id member, ← get_eq_numberOf numbered member, ExpressionDecoder.getMeaning, if_pos (Nat.le_add_right _ _),
    Nat.add_sub_cancel_left]
  exact numbered.reverseLookup_get member

/-- What an encoding says about its tree. -/
structure Read (D : Doubles) (last : MeaningDictionary) (pair : EncodedFormula × CmmlToken) : Prop where
  roomy : Roomy (namesIn last)
  formula : pair.1 = (symbols pair.2).map (code (namesIn last))
  known : ∀ symbol ∈ symbols pair.2, symbol.1 ∈ namesIn last ∧ symbol.2 ≤ encTokMaxArity
  meaning : ∀ symbol ∈ symbols pair.2,
    (ExpressionDecoder.new last).getMeaning (code (namesIn last) symbol).id = some symbol.1

theorem Encoding.read {D : Doubles} {last : MeaningDictionary} {pair : EncodedFormula × CmmlToken}
    (encoding : Encoding D last pair) (narrowed : Narrowed pair.2) (few : last.map.length < 2 ^ 24 - 161) :
    Read D last pair := by
  obtain ⟨encoder, putting, fine, formula⟩ := encoding
  obtain ⟨roomy, numbered, coded⟩ := putting.codes (constants_of_variableFree narrowed.free) few
  have all := coded.returns.mp fine
  have known := known_symbols encoder coded.known all narrowed.narrow
  refine ⟨roomy, ?_, known, fun symbol member => getMeaning_code roomy numbered (known symbol member).1 symbol.2⟩
  rw [formula, coded.formula, namedSymbols_eq_symbols encoder narrowed.countable all]

/-- **Encodings are read as their trees.** -/
theorem Read.spelt {D : Doubles} {last : MeaningDictionary} {pair : EncodedFormula × CmmlToken}
    (read : Read D last pair) (heuristic : CutoffHeuristic) :
    Spelt ⟨.new last, heuristic⟩ (code (namesIn last)) pair.1 pair.2 where
  formula := read.formula
  arity inner inside := by
    have small := (read.known inner.symbol (List.mem_map_of_mem inside)).2
    exact Nat.mod_eq_of_lt (lt_of_le_of_lt small (by decide))
  meaning inner inside := read.meaning inner.symbol (List.mem_map_of_mem inside)

/-- Words over the symbols of such trees are equal if the encoded ones are. -/
theorem Read.symbols_eq {D : Doubles} {last : MeaningDictionary} {pair pair' : EncodedFormula × CmmlToken}
    (read : Read D last pair) (read' : Read D last pair') {word word' : List CmmlToken} (inside : word ⊆ subtrees pair.2)
    (inside' : word' ⊆ subtrees pair'.2) : word.map (code (namesIn last) ∘ symbol) = word'.map (code (namesIn last) ∘ symbol) ↔
      word.map symbol = word'.map symbol := by
  rw [← List.map_map, ← List.map_map]
  refine code_eq_iff read.roomy ?_ ?_
  · exact List.forall_mem_map.mpr fun inner among => read.known _ (List.mem_map_of_mem (inside among))
  · exact List.forall_mem_map.mpr fun inner among => read'.known _ (List.mem_map_of_mem (inside' among))

/-- **The same tokens are left** if the same nodes are, each with its meaning and its number of child nodes. -/
theorem reduceEncoded_eq_iff_symbols {D : Doubles} {last : MeaningDictionary} {heuristic : CutoffHeuristic}
    {pair pair' : EncodedFormula × CmmlToken} (read : Read D last pair) (read' : Read D last pair') (cutoff cutoff' : Nat) :
    (⟨.new last, heuristic⟩ : SchemaEngine).reduceEncoded pair.1 cutoff =
        (⟨.new last, heuristic⟩ : SchemaEngine).reduceEncoded pair'.1 cutoff' ↔
      (word (keptTree cutoff pair.2)).map symbol = (word (keptTree cutoff' pair'.2)).map symbol := by
  rw [reduceEncoded_spelt (read.spelt heuristic), reduceEncoded_spelt (read'.spelt heuristic), Except.ok.injEq,
    read.symbols_eq read' (word_keptTree_subset _ _) (word_keptTree_subset _ _)]

end Encoded

/-! ### The schemata of a request -/

section Request

variable {self : SchemaEngine} {enc : Str × Nat → EncodedToken} {formulae : List (EncodedFormula × CmmlToken)} {depth : Nat}

/-- The formulae of a request, each read as its tree. -/
def SpeltAll (self : SchemaEngine) (enc : Str × Nat → EncodedToken) (formulae : List (EncodedFormula × CmmlToken)) : Prop :=
  ∀ pair ∈ formulae, self.Spelt enc pair.1 pair.2

/-- What is kept of a formula of the request. -/
def keptOf (self : SchemaEngine) (depth : Nat) (pair : EncodedFormula × CmmlToken) : PartialTree CmmlToken :=
  keptTree (self.cutoff depth pair.2) pair.2

/-- The text of the group of a formula. -/
def hashOf (self : SchemaEngine) (enc : Str × Nat → EncodedToken) (depth : Nat) (pair : EncodedFormula × CmmlToken) : Str :=
  hashExpr ((word (self.keptOf depth pair)).map (enc ∘ symbol))

/-- The formulae with their groups, numbered from `start` on. -/
def entriesFrom (self : SchemaEngine) (enc : Str × Nat → EncodedToken) (depth start : Nat)
    (formulae : List (EncodedFormula × CmmlToken)) : List (Str × Nat) :=
  (formulae.zipIdx start).map fun entry => (self.hashOf enc depth entry.1, entry.2 % 2 ^ 32)

theorem addFormula_eq (hash : Str) (i : Nat) (groups : List (Str × List Nat)) :
    addFormula hash i groups = Grouping.add hash i groups := by
  induction groups with
  | nil => rfl
  | cons group rest ih => rw [addFormula, Grouping.add, ih]

/-- **The loop over the formulae** makes the groups of their texts. -/
theorem groupLoop_eq : ∀ {formulae : List (EncodedFormula × CmmlToken)}, self.SpeltAll enc formulae → ∀ (i : Nat) (groups : Groups),
    self.groupLoop depth formulae i groups = .ok
      ⟨(self.entriesFrom enc depth i formulae).foldl (fun groups entry => Grouping.add entry.1 entry.2 groups)
          groups.schemaGroup,
        formulae.foldl (fun table pair => Function.update table (self.hashOf enc depth pair) (self.cutoff depth pair.2))
          groups.cutoffs⟩ := by
  intro formulae
  induction formulae with
  | nil => intro _ i groups; rfl
  | cons pair rest ih =>
    intro spelt i groups
    rw [SpeltAll, List.forall_mem_cons] at spelt
    obtain ⟨expr, tree⟩ := pair
    rw [groupLoop, reduceEncoded_spelt spelt.1 (self.cutoff depth tree)]
    simp only [bind, Except.bind]
    rw [ih spelt.2, addFormula_eq]
    rfl

/-- The schema of a group. -/
theorem exprSchema_eq (spelt : self.SpeltAll enc formulae) {cutoffs : Str → Nat} {pair : EncodedFormula × CmmlToken}
    (member : pair ∈ formulae) (written : cutoffs (self.hashOf enc depth pair) = self.cutoff depth pair.2)
    (numbers : List Nat) :
    self.exprSchema cutoffs (self.hashOf enc depth pair, numbers) =
      .ok ⟨(schemaOf (self.cutoff depth pair.2) pair.2).toCmml, numbers.length, numbers, []⟩ := by
  unfold exprSchema
  simp only [written]
  rw [hashOf, unhash_hash]
  simp only [keptOf, decodeEncoded_spelt (spelt pair member)]
  rfl

theorem mapM_eq_ok {α β : Type} {f : α → Except Stop β} {P : α → β → Prop} {items : List α}
    (each : ∀ item ∈ items, ∃ value, f item = .ok value ∧ P item value) :
    ∃ values, items.mapM f = .ok values ∧ List.Forall₂ P items values := by
  induction items with
  | nil => exact ⟨[], rfl, .nil⟩
  | cons item rest ih =>
    rw [List.forall_mem_cons] at each
    obtain ⟨⟨value, computed, holds⟩, later⟩ := each
    obtain ⟨values, all, related⟩ := ih later
    refine ⟨value :: values, ?_, .cons holds related⟩
    rw [List.mapM_cons, computed, all]
    rfl

/-- What a schema says about a group: it is read back at the cutoff of one of its formulae. -/
def SchemaFor (self : SchemaEngine) (enc : Str × Nat → EncodedToken) (depth : Nat)
    (formulae : List (EncodedFormula × CmmlToken)) (group : Str × List Nat) (sch : ExprSchema) : Prop :=
  ∃ pair ∈ formulae, group.1 = self.hashOf enc depth pair ∧
    sch = ⟨(schemaOf (self.cutoff depth pair.2) pair.2).toCmml, group.2.length, group.2, []⟩

/-- **The schemata of a request**: one for each of the groups that are asked for. -/
theorem getSchemata_spec (spelt : self.SpeltAll enc formulae) (order : Arrangement) (maxTotal : Nat) :
    ∃ schemata, self.getSchemata order formulae maxTotal depth =
        .ok ⟨schemata, castInt (Grouping.groups (self.entriesFrom enc depth 0 formulae)).length⟩ ∧
      List.Forall₂ (self.SchemaFor enc depth formulae)
        (topExprs maxTotal (order.arrange (Grouping.groups (self.entriesFrom enc depth 0 formulae)))) schemata := by
  have each : ∀ group ∈ topExprs maxTotal (order.arrange (Grouping.groups (self.entriesFrom enc depth 0 formulae))),
      ∃ sch, self.exprSchema (formulae.foldl (fun table pair => Function.update table (self.hashOf enc depth pair)
        (self.cutoff depth pair.2)) fun _ => 0) group = .ok sch ∧ self.SchemaFor enc depth formulae group sch := by
    intro group among
    have member : group ∈ Grouping.groups (self.entriesFrom enc depth 0 formulae) := by
      refine (order.perm _).mem_iff.mp ?_
      unfold topExprs at among
      split_ifs at among
      · exact List.mem_of_mem_take among
      · exact among
    obtain ⟨hash, numbers⟩ := group
    have hashed : hash ∈ formulae.map (self.hashOf enc depth) := by
      obtain ⟨key, -⟩ := (Grouping.mem_groups_iff _).mp member
      rw [entriesFrom, List.map_map] at key
      obtain ⟨entry, inside, rfl⟩ := List.mem_map.mp key
      exact List.mem_map_of_mem (List.fst_mem_of_mem_zipIdx inside)
    obtain ⟨pair, inside, rfl, written⟩ := Grouping.foldl_update (self.hashOf enc depth)
      (fun pair : EncodedFormula × CmmlToken => self.cutoff depth pair.2) formulae (fun _ => 0) hashed
    exact ⟨_, exprSchema_eq spelt inside written numbers, pair, inside, rfl, rfl⟩
  obtain ⟨schemata, all, related⟩ := mapM_eq_ok each
  refine ⟨schemata, ?_, related⟩
  rw [getSchemata, groupLoop_eq spelt]
  simp only [bind, Except.bind]
  rw [show (self.entriesFrom enc depth 0 formulae).foldl (fun groups entry => Grouping.add entry.1 entry.2 groups) [] =
    Grouping.groups (self.entriesFrom enc depth 0 formulae) from rfl, all]
  rfl

end Request

end SchemaEngine

end MathWebSearch
