/-
**Schemata with an absolute cutoff** (`SchemaEngine::getSchemata` with `ABSOLUTE`).

* `Shared` — the schemata of a request share out its formulae; `getSchemata_shared` says so of either heuristic.
* `InstanceOf` — a tree is a schema with subtrees of it in place of the variables.
* `Generalises` — what a schema says about the tree of one of its formulae, at an absolute depth.
* `getSchemata_absolute` — **the schemata generalise their formulae**.
* `not_getSchemata_absolute` — at depth 0 the variable is `x0`, and more than `2 ^ 32` formulae are not shared out.
-/

import MathWebSearch.Query.SchemaInstances

namespace MathWebSearch

open CmmlToken PartialTree

namespace SchemaEngine

/-! ### How formulae are shared out -/

/-- The schemata share out the formulae: two of them are in one schema if the same tokens are left of them. All of them
are in one when there is no limit. -/
structure Shared (engine : SchemaEngine) (maxTotal depth : Nat) (formulae : List (EncodedFormula × CmmlToken))
    (result : SchemaAnswset) : Prop where
  partition : maxTotal = 0 → (result.schemata.flatMap ExprSchema.formulae).Perm (List.range formulae.length)
  coverage : ∀ sch ∈ result.schemata, sch.coverage = sch.formulae.length ∧ sch.formulae ≠ []
  decreasing : result.schemata.Pairwise fun sch sch' => sch'.coverage ≤ sch.coverage
  total : maxTotal = 0 → result.total = castInt result.schemata.length ∧
    (result.schemata.length < 2 ^ 31 → result.total = result.schemata.length)
  together : ∀ sch ∈ result.schemata, ∀ i j : Nat, ∀ pair pair', formulae[i]? = some pair → formulae[j]? = some pair' →
    i ∈ sch.formulae → (j ∈ sch.formulae ↔
      engine.reduceEncoded pair'.1 (engine.cutoff depth pair'.2) = engine.reduceEncoded pair.1 (engine.cutoff depth pair.2))

section Request

variable {self : SchemaEngine} {enc : Str × Nat → EncodedToken} {formulae : List (EncodedFormula × CmmlToken)} {depth : Nat}

theorem snd_entriesFrom : (self.entriesFrom enc depth 0 formulae).map Prod.snd =
    (List.range formulae.length).map fun i => i % 2 ^ 32 := by
  rw [entriesFrom, List.map_map, List.range_eq_range', ← List.zipIdx_map_snd 0 formulae, List.map_map]
  rfl

theorem mem_entriesFrom (small : formulae.length ≤ 2 ^ 32) {hash : Str} {i : Nat} :
    (hash, i) ∈ self.entriesFrom enc depth 0 formulae ↔ ∃ pair, formulae[i]? = some pair ∧ self.hashOf enc depth pair = hash := by
  rw [entriesFrom, List.mem_map]
  constructor
  · rintro ⟨⟨pair, place⟩, member, same⟩
    obtain ⟨rfl, rfl⟩ := Prod.mk.inj same
    have found := List.mk_mem_zipIdx_iff_getElem?.mp member
    have low : place < 2 ^ 32 := lt_of_lt_of_le (List.getElem?_eq_some_iff.mp found).1 small
    exact ⟨pair, by rw [Nat.mod_eq_of_lt low]; exact found, rfl⟩
  · rintro ⟨pair, found, rfl⟩
    have low : i < 2 ^ 32 := lt_of_lt_of_le (List.getElem?_eq_some_iff.mp found).1 small
    exact ⟨(pair, i), List.mk_mem_zipIdx_iff_getElem?.mpr found, by rw [Nat.mod_eq_of_lt low]⟩

/-- The texts of two groups are equal if the same tokens are left. -/
theorem hashOf_eq_iff {pair pair' : EncodedFormula × CmmlToken} (spelt : self.Spelt enc pair.1 pair.2)
    (spelt' : self.Spelt enc pair'.1 pair'.2) : self.hashOf enc depth pair' = self.hashOf enc depth pair ↔
      self.reduceEncoded pair'.1 (self.cutoff depth pair'.2) = self.reduceEncoded pair.1 (self.cutoff depth pair.2) := by
  rw [reduceEncoded_spelt spelt, reduceEncoded_spelt spelt', Except.ok.injEq]
  exact ⟨fun same => hashExpr_inj same, fun same => congrArg hashExpr same⟩

/-- What the schema of a group says: which formulae it has, and at the cutoff of which of them it is read back. -/
theorem forall_schemata {schemata : List ExprSchema} {groups : List (Str × List Nat)}
    (related : List.Forall₂ (self.SchemaFor enc depth formulae) groups schemata) :
    schemata.map ExprSchema.formulae = groups.map Prod.snd ∧
      ∀ sch ∈ schemata, ∃ group ∈ groups, self.SchemaFor enc depth formulae group sch := by
  induction related with
  | nil => exact ⟨rfl, fun sch member => absurd member List.not_mem_nil⟩
  | @cons group sch groups schemata here _ ih =>
    refine ⟨?_, List.forall_mem_cons.mpr ⟨⟨group, List.mem_cons_self, here⟩, fun other member => ?_⟩⟩
    · obtain ⟨_, -, -, rfl⟩ := here
      rw [List.map_cons, List.map_cons, ih.1]
    · obtain ⟨group', among, there⟩ := ih.2 other member
      exact ⟨group', List.mem_cons_of_mem _ among, there⟩

/-- The root of every schema is read back of one of its formulae. -/
def Rooted (engine : SchemaEngine) (depth : Nat) (formulae : List (EncodedFormula × CmmlToken)) (result : SchemaAnswset) :
    Prop :=
  ∀ sch ∈ result.schemata, ∃ i ∈ sch.formulae, ∃ pair, formulae[i]? = some pair ∧
    sch.root = (schemaOf (engine.cutoff depth pair.2) pair.2).toCmml

theorem topExprs_sublist (maxTotal : Nat) (groups : List (Str × List Nat)) : (topExprs maxTotal groups).Sublist groups := by
  unfold topExprs
  split_ifs
  · exact List.take_sublist _ _
  · exact List.Sublist.refl _

/-- **The schemata share out the formulae**, with either heuristic. -/
theorem getSchemata_shared (spelt : self.SpeltAll enc formulae) (small : formulae.length ≤ 2 ^ 32) (order : Arrangement)
    (maxTotal : Nat) : ∃ result, self.getSchemata order formulae maxTotal depth = .ok result ∧
      self.Shared maxTotal depth formulae result ∧ self.Rooted depth formulae result := by
  obtain ⟨schemata, got, related⟩ := @getSchemata_spec _ _ _ depth spelt order maxTotal
  generalize sorted : order.arrange (Grouping.groups (self.entriesFrom enc depth 0 formulae)) = groups at related
  have perm : groups.Perm (Grouping.groups (self.entriesFrom enc depth 0 formulae)) := sorted ▸ order.perm _
  obtain ⟨same, rooted⟩ := forall_schemata related
  have covers : ∀ sch ∈ schemata, sch.coverage = sch.formulae.length := by
    intro sch member
    obtain ⟨_, -, _, -, -, rfl⟩ := rooted sch member
    rfl
  -- the formulae of a schema are those with one text
  have spells : ∀ sch ∈ schemata, ∃ pair ∈ formulae,
      sch.root = (schemaOf (self.cutoff depth pair.2) pair.2).toCmml ∧
        ∀ i, i ∈ sch.formulae ↔ ∃ pair', formulae[i]? = some pair' ∧ self.hashOf enc depth pair' = self.hashOf enc depth pair := by
    intro sch member
    obtain ⟨⟨hash, numbers⟩, among, pair, inside, hashed, rfl⟩ := rooted sch member
    obtain rfl : hash = self.hashOf enc depth pair := hashed
    refine ⟨pair, inside, rfl, fun i => ?_⟩
    have group := perm.mem_iff.mp ((topExprs_sublist maxTotal groups).subset among)
    obtain ⟨-, rfl⟩ := (Grouping.mem_groups_iff _).mp group
    rw [Grouping.mem_itemsOf, mem_entriesFrom small]
  have own : ∀ pair ∈ formulae, ∃ i, formulae[i]? = some pair := fun pair inside => List.getElem?_of_mem inside
  have all : maxTotal = 0 → topExprs maxTotal groups = groups := fun zero => if_neg fun both => both.2 zero
  refine ⟨_, got, ⟨fun zero => ?_, fun sch member => ⟨covers sch member, ?_⟩, ?_, fun zero => ?_, ?_⟩, ?_⟩
  · rw [List.flatMap, same, all zero]
    refine (perm.flatMap_right Prod.snd).trans ((Grouping.perm_groups _).trans ?_)
    rw [snd_entriesFrom]
    refine .of_eq ((List.map_congr_left fun i member => ?_).trans (List.map_id _))
    exact Nat.mod_eq_of_lt (lt_of_lt_of_le (List.mem_range.mp member) small)
  · obtain ⟨pair, inside, -, numbers⟩ := spells sch member
    obtain ⟨i, found⟩ := own pair inside
    exact List.ne_nil_of_mem ((numbers i).mpr ⟨pair, found, rfl⟩)
  · have lengths : (schemata.map ExprSchema.formulae).Pairwise fun numbers numbers' => numbers'.length ≤ numbers.length := by
      rw [same, List.pairwise_map]
      exact (sorted ▸ order.sorted _ : groups.Pairwise _).sublist (topExprs_sublist maxTotal groups)
    rw [List.pairwise_map] at lengths
    refine lengths.imp_of_mem fun member member' less => ?_
    rw [covers _ member, covers _ member']
    exact less
  · have count : (Grouping.groups (self.entriesFrom enc depth 0 formulae)).length = schemata.length := by
      rw [← perm.length_eq, ← all zero, related.length_eq]
    dsimp only
    rw [count]
    exact ⟨rfl, (castInt_natCast_iff _).mpr⟩
  · intro sch member i j pair pair' found found' belongs
    obtain ⟨_, -, -, numbers⟩ := spells sch member
    obtain ⟨_, here, hashed⟩ := (numbers i).mp belongs
    obtain rfl := Option.some.inj (found.symm.trans here)
    rw [numbers j, ← hashOf_eq_iff (spelt _ (List.mem_of_getElem? found)) (spelt _ (List.mem_of_getElem? found')), hashed]
    constructor
    · rintro ⟨other, there, hashed'⟩
      obtain rfl := Option.some.inj (found'.symm.trans there)
      exact hashed'
    · exact fun hashed' => ⟨pair', found', hashed'⟩
  · intro sch member
    obtain ⟨pair, inside, root, numbers⟩ := spells sch member
    obtain ⟨i, found⟩ := own pair inside
    exact ⟨i, (numbers i).mpr ⟨pair, found, rfl⟩, pair, found, root⟩

/-- The numbers of formulae are of type `uint32_t`. -/
theorem number_lt (spelt : self.SpeltAll enc formulae) {order : Arrangement} {maxTotal : Nat} {result : SchemaAnswset}
    (got : self.getSchemata order formulae maxTotal depth = .ok result) :
    ∀ sch ∈ result.schemata, ∀ i ∈ sch.formulae, i < 2 ^ 32 := by
  obtain ⟨schemata, got', related⟩ := @getSchemata_spec _ _ _ depth spelt order maxTotal
  obtain rfl := Except.ok.inj (got.symm.trans got')
  intro sch member i belongs
  obtain ⟨⟨hash, numbers⟩, among, _, -, -, rfl⟩ := (forall_schemata related).2 sch member
  have group := (order.perm _).mem_iff.mp ((topExprs_sublist maxTotal _).subset among)
  obtain ⟨-, rfl⟩ := (Grouping.mem_groups_iff _).mp group
  obtain ⟨entry, -, same⟩ := List.mem_map.mp (Grouping.mem_itemsOf.mp belongs)
  rw [← (Prod.mk.inj same).2]
  exact Nat.mod_lt _ (by decide)

/-- The numbers are those of formulae. -/
theorem index_lt (spelt : self.SpeltAll enc formulae) (small : formulae.length ≤ 2 ^ 32) {order : Arrangement}
    {maxTotal : Nat} {result : SchemaAnswset} (got : self.getSchemata order formulae maxTotal depth = .ok result) :
    ∀ sch ∈ result.schemata, ∀ i ∈ sch.formulae, i < formulae.length := by
  obtain ⟨schemata, got', related⟩ := @getSchemata_spec _ _ _ depth spelt order maxTotal
  obtain rfl := Except.ok.inj (got.symm.trans got')
  intro sch member i belongs
  obtain ⟨⟨hash, numbers⟩, among, _, -, -, rfl⟩ := (forall_schemata related).2 sch member
  have group := (order.perm _).mem_iff.mp ((topExprs_sublist maxTotal _).subset among)
  obtain ⟨-, rfl⟩ := (Grouping.mem_groups_iff _).mp group
  obtain ⟨_, found, -⟩ := (mem_entriesFrom small).mp (Grouping.mem_itemsOf.mp belongs)
  exact (List.getElem?_eq_some_iff.mp found).1

end Request

/-! ### What a schema says about a formula -/

/-- The tree is the schema with subtrees of it in place of the variables. -/
def InstanceOf (root tree : CmmlToken) : Prop :=
  ∃ assignment : Str → CmmlToken, (∀ name, assignment name ∈ subtrees tree) ∧
    (substitute assignment root).equals tree = true

/-- The names of so many variables of a schema. The variable in place of a whole tree has the number 0; the numbers are
of type `uint32_t`. -/
def qvarNumbers (depth count : Nat) : List Str :=
  if depth = 0 then [qvarName 0] else (List.range' 1 count).map fun number => qvarName (number % 2 ^ 32)

/-- The schema generalises the tree. -/
structure Generalises (depth : Nat) (root tree : CmmlToken) : Prop where
  named : qvarNames root = qvarNumbers depth (qvarNames root).length
  distinct : (qvarNames root).length < 2 ^ 32 → (qvarNames root).Nodup
  hasInstance : (qvarNames root).length < 2 ^ 32 → InstanceOf root tree
  kept : ∀ position node, tree.at? position = some node → position.length < depth →
    ∃ node', root.at? position = some node' ∧ node'.isVar = false ∧ node'.symbol = node.symbol
  deep : ∀ position node, root.at? position = some node → node.isVar = true → depth ≤ position.length ∧
    ∀ front, position = front ++ [0] → ∀ parent, root.at? front = some parent →
      ExpressionEncoder.applyTag.isPrefixOf parent.getTag = false

theorem qvarName_injective : Function.Injective qvarName := fun _ _ same => toStr_injective (List.cons.inj same).2

theorem nodup_qvarNumbers {depth count : Nat} (few : count < 2 ^ 32) : (qvarNumbers depth count).Nodup := by
  unfold qvarNumbers
  split_ifs
  · exact List.nodup_singleton _
  · refine List.Nodup.map_on ?_ List.nodup_range'
    intro number member number' member' same
    rw [List.mem_range'_1] at member member'
    have equal := qvarName_injective same
    rwa [Nat.mod_eq_of_lt (by omega), Nat.mod_eq_of_lt (by omega)] at equal

section Dropped

variable {depth : Nat}

theorem droppedAll_subset {trees : List CmmlToken} {level : Nat}
    (each : ∀ tree ∈ trees, dropped depth level tree ⊆ subtrees tree) :
    ∀ first, droppedAll depth level first trees ⊆ trees.flatMap subtrees := by
  induction trees with
  | nil => intro first; rw [droppedAll]; exact List.nil_subset _
  | cons tree rest ih =>
    intro first
    rw [List.forall_mem_cons] at each
    rw [droppedAll_cons, List.flatMap_cons]
    refine List.append_subset.mpr ⟨List.subset_append_of_subset_left _ ?_, List.subset_append_of_subset_right _ (ih each.2 _)⟩
    rw [droppedChild]
    split_ifs
    · exact each.1
    · exact List.cons_subset.mpr ⟨mem_subtrees_self tree, List.nil_subset _⟩

/-- What is dropped are subtrees. -/
theorem dropped_subset (tree : CmmlToken) : ∀ level, dropped depth level tree ⊆ subtrees tree := by
  induction tree with
  | mk tag attributes text children ih =>
    intro level
    rw [dropped_eq, subtrees_eq, getChildNodes_mk]
    exact List.Subset.trans (droppedAll_subset (fun child member => ih child member (level + 1)) _)
      (List.subset_cons_self _ _)

theorem length_droppedAll {trees : List CmmlToken} {level : Nat}
    (each : ∀ tree ∈ trees, (dropped depth level tree).length < (subtrees tree).length) : ∀ first,
    (droppedAll depth level first trees).length ≤ (trees.flatMap subtrees).length := by
  induction trees with
  | nil => intro first; rw [droppedAll]; exact Nat.zero_le _
  | cons tree rest ih =>
    intro first
    rw [List.forall_mem_cons] at each
    rw [droppedAll_cons, List.flatMap_cons, List.length_append, List.length_append]
    refine Nat.add_le_add ?_ (ih each.2 false)
    rw [droppedChild]
    split_ifs
    · exact each.1.le
    · exact List.length_pos_of_mem (mem_subtrees_self tree)

/-- The root is not dropped. -/
theorem length_dropped (tree : CmmlToken) : ∀ level, (dropped depth level tree).length < (subtrees tree).length := by
  induction tree with
  | mk tag attributes text children ih =>
    intro level
    rw [dropped_eq, subtrees_eq, getChildNodes_mk, List.length_cons]
    exact Nat.lt_succ_of_le (length_droppedAll (fun child member => ih child member (level + 1)) _)

/-- Fewer than `2 ^ 32` variables can stand for any trees. -/
theorem exists_assigns {trees : List CmmlToken} (few : trees.length < 2 ^ 32) (other : CmmlToken) :
    ∃ assignment : Str → CmmlToken, (∀ name, assignment name = other ∨ assignment name ∈ trees) ∧
      Assigns assignment 1 trees := by
  have names : (List.range' 1 trees.length).map (fun number => qvarName (number % 2 ^ 32)) = qvarNumbers 1 trees.length := rfl
  refine ⟨fun name => trees.getD ((qvarNumbers 1 trees.length).idxOf name) other, fun name => ?_, fun place tree found => ?_⟩
  · simp only [List.getD_eq_getElem?_getD]
    cases found : trees[(qvarNumbers 1 trees.length).idxOf name]? with
    | none => exact .inl rfl
    | some tree => exact .inr (List.mem_of_getElem? found)
  · have low := (List.getElem?_eq_some_iff.mp found).1
    have bound : place < (qvarNumbers 1 trees.length).length := by
      rw [← names, List.length_map, List.length_range']
      exact low
    have here : (qvarNumbers 1 trees.length)[place] = qvarName ((1 + place) % 2 ^ 32) := by
      simp only [← names, List.getElem_map, List.getElem_range', Nat.one_mul]
    have position := (nodup_qvarNumbers few).idxOf_getElem place bound
    rw [here] at position
    show trees.getD _ other = tree
    rw [position, List.getD_eq_getElem?_getD, found]
    rfl

theorem toCmml_schemaOf_zero (tree : CmmlToken) : (schemaOf 0 tree).toCmml = (SchemaTree.qvar 0).toCmml := by
  rw [schemaOf, keptTree_zero, if_pos rfl, numbered_stub]
  rfl

theorem schemaOf_pos (positive : depth ≠ 0) (tree : CmmlToken) : schemaOf depth tree = (readAt depth 0 tree 1).1 := by
  rw [schemaOf, keptTree_pos positive, if_neg positive]

theorem qvarNames_schemaOf {tree : CmmlToken} (plain : tree.Plain) (free : tree.VariableFree) (depth : Nat) :
    qvarNames (schemaOf depth tree).toCmml = qvarNumbers depth (dropped depth 0 tree).length := by
  by_cases zero : depth = 0
  · rw [zero, toCmml_schemaOf_zero, qvarNames_qvar, qvarNumbers, if_pos rfl]
  · rw [schemaOf_pos zero, qvarNames_readAt tree plain free 0 1, qvarNumbers, if_neg zero]

theorem length_qvarNumbers (count : Nat) : (qvarNumbers depth count).length = if depth = 0 then 1 else count := by
  unfold qvarNumbers
  split_ifs
  · rfl
  · rw [List.length_map, List.length_range']

/-- There are no more variables than nodes. -/
theorem length_qvarNames_schemaOf {tree : CmmlToken} (plain : tree.Plain) (free : tree.VariableFree) (depth : Nat) :
    (qvarNames (schemaOf depth tree).toCmml).length ≤ (subtrees tree).length := by
  rw [qvarNames_schemaOf plain free, length_qvarNumbers]
  split_ifs
  · exact List.length_pos_of_mem (mem_subtrees_self tree)
  · exact (length_dropped tree 0).le

/-- **What is read back of a tree generalises it.** -/
theorem generalises_schemaOf {tree : CmmlToken} (plain : tree.Plain) (free : tree.VariableFree) (depth : Nat) :
    Generalises depth (schemaOf depth tree).toCmml tree := by
  have names := qvarNames_schemaOf plain free depth
  have named : qvarNames (schemaOf depth tree).toCmml = qvarNumbers depth (qvarNames (schemaOf depth tree).toCmml).length := by
    rw [names, length_qvarNumbers]
    unfold qvarNumbers
    split_ifs <;> rfl
  have distinct : (qvarNames (schemaOf depth tree).toCmml).length < 2 ^ 32 → (qvarNames (schemaOf depth tree).toCmml).Nodup := by
    intro few
    rw [named]
    exact nodup_qvarNumbers few
  by_cases zero : depth = 0
  · subst zero
    refine ⟨named, distinct, fun _ => ⟨fun _ => tree, fun _ => mem_subtrees_self tree, ?_⟩, ?_, ?_⟩
    · rw [toCmml_schemaOf_zero, substitute_var (isVar_qvar 0)]
      exact free.equals_self
    · exact fun position node _ low => absurd low (Nat.not_lt_zero _)
    · intro position node found _
      refine ⟨Nat.zero_le _, fun front split parent above => ?_⟩
      subst split
      rw [toCmml_schemaOf_zero, toCmml_qvar] at found
      cases front <;> cases found
  · have root := schemaOf_pos zero tree
    refine ⟨named, distinct, fun few => ?_, ?_, ?_⟩
    · rw [names, length_qvarNumbers, if_neg zero] at few
      obtain ⟨assignment, values, assigns⟩ := exists_assigns few tree
      rw [root]
      refine ⟨assignment, fun name => ?_, equals_substitute tree plain free 0 1 assigns⟩
      rcases values name with same | among
      · rw [same]
        exact mem_subtrees_self tree
      · exact dropped_subset tree 0 among
    · intro position node found low
      rw [root]
      exact readAt_kept tree plain free 0 1 found (.inl (by omega))
    · intro position node found qvar
      rw [root] at found ⊢
      obtain ⟨deep, notFirst⟩ := readAt_qvar tree plain free 0 1 found qvar
      exact ⟨by omega, notFirst⟩

end Dropped

/-! ### Absolute cutoffs -/

section Absolute

open ExpressionEncoder IdDictionary

/-- With an absolute cutoff, the root of a schema is what is read back of any of its formulae: the same tokens are left of
all of them, and they are read back at the same depth. -/
theorem root_absolute {last : MeaningDictionary} {formulae : List (EncodedFormula × CmmlToken)} {maxTotal depth : Nat}
    {result : SchemaAnswset} (spelt : (⟨.new last, .absolute⟩ : SchemaEngine).SpeltAll (code (namesIn last)) formulae)
    (shared : Shared ⟨.new last, .absolute⟩ maxTotal depth formulae result)
    (rooted : Rooted ⟨.new last, .absolute⟩ depth formulae result) : ∀ sch ∈ result.schemata, ∀ i ∈ sch.formulae,
      ∀ pair, formulae[i]? = some pair → sch.root = (schemaOf depth pair.2).toCmml := by
  intro sch member i belongs pair found
  obtain ⟨j, belongs', pair', found', root⟩ := rooted sch member
  have here := spelt _ (List.mem_of_getElem? found)
  have there := spelt _ (List.mem_of_getElem? found')
  have left := (shared.together sch member i j pair pair' found found' belongs).mp belongs'
  rw [reduceEncoded_spelt here, reduceEncoded_spelt there] at left
  have decoded := decodeEncoded_spelt there depth
  rw [show (word (keptTree depth pair'.2)).map (code (namesIn last) ∘ symbol) = _ from Except.ok.inj left] at decoded
  rw [root]
  exact congrArg SchemaTree.toCmml (Except.ok.inj (decoded.symm.trans (decodeEncoded_spelt here depth)))

/-- **Schemata with an absolute cutoff generalise their formulae.** The formulae are encodings, over one dictionary, of
trees without variables and with plain tags, in which no node has more than 255 child nodes.

* All formulae are shared out, two of them to one schema if and only if the same tokens are left of them; larger
  schemata come first.
* The tree of a formula is the root of its schema with subtrees in place of the variables, which are numbered; nodes
  above the depth are there, and variables stand below it and never as the head of an `apply`.

Numbers of formulae and of variables are of type `uint32_t`, and the total is an `int`. -/
theorem getSchemata_absolute {D : Doubles} {last : MeaningDictionary} {formulae : List (EncodedFormula × CmmlToken)}
    (encodings : ∀ pair ∈ formulae, Encoding D last pair ∧ Narrowed pair.2 ∧ pair.2.Plain)
    (few : last.map.length < 2 ^ 24 - 161) (small : formulae.length ≤ 2 ^ 32) (order : Arrangement) (depth : Nat) :
    ∃ result, (⟨.new last, .absolute⟩ : SchemaEngine).getSchemata order formulae 0 depth = .ok result ∧
      Shared ⟨.new last, .absolute⟩ 0 depth formulae result ∧
      ∀ sch ∈ result.schemata, ∀ i ∈ sch.formulae, ∀ pair, formulae[i]? = some pair → Generalises depth sch.root pair.2 := by
  have spelt : (⟨.new last, .absolute⟩ : SchemaEngine).SpeltAll (code (namesIn last)) formulae := fun pair member =>
    ((encodings pair member).1.read (encodings pair member).2.1 few).spelt .absolute
  obtain ⟨result, got, shared, rooted⟩ := getSchemata_shared spelt small order 0
  refine ⟨result, got, shared, fun sch member i belongs pair found => ?_⟩
  rw [root_absolute spelt shared rooted sch member i belongs pair found]
  have inside := List.mem_of_getElem? found
  exact generalises_schemaOf (encodings pair inside).2.2 (encodings pair inside).2.1.free depth

/-- A node without text. -/
def branch (tag : Char) (children : List CmmlToken) : CmmlToken := .mk [tag] [] .empty children

/-- The dictionary of `f`, `x`, `y` and `g`. -/
def groupedNames : MeaningDictionary := (putAll .empty [['f', '#'], ['x', '#'], ['y', '#'], ['g', '#']]).1

/-- `f(x)`, `f(y)` and `g(x)`, with their formulae over this dictionary. -/
def groupedFormulae : List (EncodedFormula × CmmlToken) :=
  [([encodedToken 162 1, encodedToken 163 0], branch 'f' [branch 'x' []]),
    ([encodedToken 162 1, encodedToken 164 0], branch 'f' [branch 'y' []]),
    ([encodedToken 165 1, encodedToken 163 0], branch 'g' [branch 'x' []])]

theorem encodings_grouped :
    ∀ pair ∈ groupedFormulae, Encoding .whole groupedNames pair ∧ Narrowed pair.2 ∧ pair.2.Plain := by
  let walk : CmmlToken → Round .whole × Int := fun tree =>
    encodeLoop .harvest ⟨false⟩ (preorder tree none []) ((new groupedNames).startRound none)
  have walks : ∀ tree, encode (D := .whole) .harvest (.new groupedNames) ⟨false⟩ (.root tree) none = walk tree :=
    fun tree => by
      rw [encode]
      exact congrArg (fun visits => encodeLoop .harvest ⟨false⟩ visits _) (foreachSubexpression_eq tree)
  -- all names are known, so that the dictionary stays as it is
  have encoded : ∀ pair ∈ groupedFormulae, (walk pair.2).2 = 0 ∧ (walk pair.2).1.encodedFormula = pair.1 ∧
      (walk pair.2).1.encoder.meaningDictionary.map = groupedNames.map ∧
      (walk pair.2).1.encoder.meaningDictionary.nextId = groupedNames.nextId := by decide +kernel
  have free : ∀ pair ∈ groupedFormulae, pair.2.VariableFree := by unfold VariableFree; decide +kernel
  have narrow : ∀ pair ∈ groupedFormulae, ∀ inner ∈ subtrees pair.2, inner.getChildNodes.length ≤ 255 := by
    decide +kernel
  have plain : ∀ pair ∈ groupedFormulae, ∀ inner ∈ subtrees pair.2,
      '#' ∉ inner.getTag ∧ inner.getTag.take 2 ≠ ['m', ':'] := by decide +kernel
  intro pair member
  obtain ⟨fine, formula, map, nextId⟩ := encoded pair member
  refine ⟨⟨.new groupedNames, ⟨⟨_, rfl⟩, [], ?_⟩, ?_, ?_⟩, ⟨free pair member, narrow pair member⟩,
    fun inner inside => ⟨(plain pair member inner inside).1, (plain pair member inner inside).2⟩⟩
  · rw [walks]
    exact congrArg₂ IdDictionary.mk map.symm nextId.symm
  · rw [walks]
    exact fine
  · rw [walks]
    exact formula.symm

/-- At depth 1 `f(x)` and `f(y)` share a schema that generalises both; `g(x)` has another. -/
theorem getSchemata_absolute_grouped :
    ∃ result, (⟨.new groupedNames, .absolute⟩ : SchemaEngine).getSchemata largestFirst groupedFormulae 0 1 = .ok result ∧
      ∃ sch ∈ result.schemata, 0 ∈ sch.formulae ∧ 1 ∈ sch.formulae ∧ 2 ∉ sch.formulae ∧
        Generalises 1 sch.root (branch 'f' [branch 'x' []]) ∧ Generalises 1 sch.root (branch 'f' [branch 'y' []]) := by
  have few : groupedNames.map.length < 2 ^ 24 - 161 := by decide
  have read : ∀ (i : Nat) {pair : EncodedFormula × CmmlToken}, groupedFormulae[i]? = some pair →
      Read .whole groupedNames pair := fun _ {_} found =>
    have fits := encodings_grouped _ (List.mem_of_getElem? found)
    fits.1.read fits.2.1 few
  obtain ⟨result, got, shared, generalises⟩ := getSchemata_absolute encodings_grouped few
    (by decide : groupedFormulae.length ≤ 2 ^ 32) largestFirst 1
  have first := (shared.partition rfl).mem_iff.mpr (List.mem_range.mpr (by decide : 0 < groupedFormulae.length))
  obtain ⟨sch, among, belongs⟩ := List.mem_flatMap.mp first
  have together : ∀ (j : Nat) (pair : EncodedFormula × CmmlToken), groupedFormulae[j]? = some pair →
      (j ∈ sch.formulae ↔ (word (keptTree 1 pair.2)).map symbol = [(['f', '#'], 1)]) := fun j pair found =>
    (shared.together sch among 0 j _ pair rfl found belongs).trans 
      (reduceEncoded_eq_iff_symbols (read j found) (read 0 rfl) 1 1)
  have second := (together 1 _ rfl).mpr (by decide +kernel)
  refine ⟨result, got, sch, among, belongs, second, fun third => ?_, generalises sch among 0 belongs _ rfl,
    generalises sch among 1 second _ rfl⟩
  exact absurd ((together 2 _ rfl).mp third) (by decide +kernel)

/-- `<apply><cn>3</cn></apply>`, encoded into an empty dictionary. -/
def encodedApplied : Round .whole × Int := encode .harvest (.new empty) ⟨false⟩ (.root appliedThree) none

/-- The dictionary that the encoder leaves. -/
def appliedNames : MeaningDictionary := encodedApplied.1.encoder.meaningDictionary

/-- The formula with its tree. -/
def appliedFormula : EncodedFormula × CmmlToken := (encodedApplied.1.encodedFormula, appliedThree)

theorem encoding_applied : (Encoding .whole appliedNames appliedFormula ∧ Narrowed appliedThree ∧ appliedThree.Plain) ∧
    appliedNames.map.length < 2 ^ 24 - 161 := by
  have visits : dfs [.root appliedThree] = [.root appliedThree, ⟨three, some appliedThree, [1]⟩] := by rw [dfs_eq]; rfl
  have encoded : encodedApplied = encodeLoop .harvest ⟨false⟩ [.root appliedThree, ⟨three, some appliedThree, [1]⟩]
      ((new empty).startRound none) := by
    rw [encodedApplied, encode, visits]
  have subtreesApplied : subtrees appliedThree = [appliedThree, three] := rfl
  refine ⟨⟨⟨.new empty, ⟨⟨[], rfl⟩, ⟨[], rfl⟩⟩, ?_, rfl⟩, ⟨?_, ?_⟩, ?_⟩, ?_⟩
  · show encodedApplied.2 = 0
    rw [encoded]
    decide
  · unfold VariableFree
    rw [subtreesApplied]
    decide
  · rw [subtreesApplied]
    decide
  · unfold CmmlToken.Plain
    rw [subtreesApplied, List.forall_mem_cons, List.forall_mem_singleton]
    exact ⟨⟨by decide, by decide⟩, ⟨by decide, by decide⟩⟩
  · rw [appliedNames, encoded]
    decide

/-- **Two things fail**: at depth 0 the variable is `x0` and not `x1`; and the numbers of more than `2 ^ 32` formulae are
not shared out. -/
theorem not_getSchemata_absolute :
    (Encoding .whole appliedNames appliedFormula ∧ Narrowed appliedThree ∧ appliedThree.Plain) ∧
    (∃ result, (⟨.new appliedNames, .absolute⟩ : SchemaEngine).getSchemata largestFirst [appliedFormula] 0 0 = .ok result ∧
      ∃ sch ∈ result.schemata,
        qvarNames sch.root ≠ (List.range' 1 (qvarNames sch.root).length).map qvarName) ∧
    ∃ result, (⟨.new appliedNames, .absolute⟩ : SchemaEngine).getSchemata largestFirst
        (List.replicate (2 ^ 32 + 1) appliedFormula) 0 0 = .ok result ∧
      ¬(result.schemata.flatMap ExprSchema.formulae).Perm (List.range (2 ^ 32 + 1)) := by
  obtain ⟨fits, few⟩ := encoding_applied
  have spelt := (fits.1.read fits.2.1 few).spelt .absolute
  refine ⟨fits, ?_, ?_⟩
  · obtain ⟨result, got, shared, rooted⟩ := @getSchemata_shared _ _ _ 0 (List.forall_mem_singleton.mpr spelt)
      (by decide : [appliedFormula].length ≤ 2 ^ 32) largestFirst 0
    have member := (shared.partition rfl).mem_iff.mpr (List.mem_range.mpr (by decide : 0 < [appliedFormula].length))
    obtain ⟨sch, among, -⟩ := List.mem_flatMap.mp member
    refine ⟨result, got, sch, among, ?_⟩
    obtain ⟨_, -, pair, -, root⟩ := rooted sch among
    have qvar : sch.root = (SchemaTree.qvar 0).toCmml := root.trans (toCmml_schemaOf_zero pair.2)
    rw [qvar, qvarNames_qvar]
    decide
  · have all : (⟨.new appliedNames, .absolute⟩ : SchemaEngine).SpeltAll (code (namesIn appliedNames))
        (List.replicate (2 ^ 32 + 1) appliedFormula) := by
      intro pair member
      rw [(List.mem_replicate.mp member).2]
      exact spelt
    obtain ⟨schemata, got, -⟩ := @getSchemata_spec _ _ _ 0 all largestFirst 0
    refine ⟨_, got, fun partition => ?_⟩
    obtain ⟨sch, among, belongs⟩ := List.mem_flatMap.mp (partition.mem_iff.mpr (List.mem_range.mpr (Nat.lt_succ_self _)))
    exact absurd (number_lt all got sch among _ belongs) (lt_irrefl _)

end Absolute

end SchemaEngine

end MathWebSearch
