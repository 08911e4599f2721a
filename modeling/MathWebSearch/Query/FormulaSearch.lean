/-
**Searching an exported index for a formula** (`SearchContext::getResult`, `IndexAccessor`).

A search that is not interested in hits and wants one formula only, over the image of an index.

* `getResult_formula` — a formula without variables and ranges that is in the index is found under its id.
* `getResult_hole` — a query that goes on behind a variable or range it begins with never comes to an end.
-/

import MathWebSearch.Query.ExportedSearch

namespace MathWebSearch

open PrefixCode PatternWord TmpIndexNode Simulation

/-- An index that is loaded: the image, and the index in memory it was exported from. -/
structure LoadedIndex where
  handle : IndexHandle
  index : TmpIndex
  shaped : index.Shaped
  represents : WellFormed 1 index.root → Represents Fits handle.image index.root handle.root

/-- A formula in which every token stands for itself. -/
def EncodedFormula.IsConstant (formula : EncodedFormula) : Prop := ∀ token ∈ formula, token.role = .constant

instance (formula : EncodedFormula) : Decidable formula.IsConstant := inferInstanceAs (Decidable (∀ token ∈ formula, _))

namespace SearchContext

variable {D : Doubles}

/-- A search for one id, without hits. -/
def firstId : QueryOptions := { includeHits := false }

/-- The context of such a search. -/
def forFormula (D : Doubles) (formula : EncodedFormula) : SearchContext D := new formula firstId [] none

/-! ### Formulas -/

theorem isRange_ne_of_constant {token : EncodedToken} (constant : token.role = .constant) : token.isRange ≠ true := by
  intro range
  unfold EncodedToken.role at constant
  split_ifs at constant

/-- The entry with a key, among entries with different keys. -/
theorem filter_key {κ ν : Type} [DecidableEq κ] {entries : List (κ × ν)} (nodup : (entries.map Prod.fst).Nodup)
    {key : κ} {value : ν} (member : (key, value) ∈ entries) :
    (entries.filter fun entry => decide (entry.1 = key)) = [(key, value)] := by
  induction entries with
  | nil => exact absurd member List.not_mem_nil
  | cons head rest ih =>
    rw [List.map_cons, List.nodup_cons] at nodup
    rcases List.mem_cons.mp member with rfl | inside
    · rw [List.filter_cons, if_pos (decide_eq_true rfl), List.filter_eq_nil_iff.mpr]
      intro other among same
      exact nodup.1 (List.mem_map.mpr ⟨other, among, of_decide_eq_true same⟩)
    · have different : ¬ decide (head.1 = key) = true := fun same =>
        nodup.1 (List.mem_map.mpr ⟨(key, value), inside, (of_decide_eq_true same).symm⟩)
      rw [List.filter_cons, if_neg different, ih nodup.2 inside]

/-- **A formula in the index is found.** -/
theorem getResult_formula (D : Doubles) (loaded : LoadedIndex) {formula : EncodedFormula} {leaf : TmpLeaf}
    (stored : loaded.index.leafAt formula = some leaf) (constants : formula.IsConstant) (query : DbQuery) :
    ∃ enough, ∀ fuel, enough ≤ fuel →
      (forFormula D formula).getResult indexAccessor loaded.handle query fuel 0 1 1 = some ⟨[], 1, [], [], [leaf.id]⟩ := by
  have member := loaded.shaped.mem_leaves.mpr stored
  have shape : WellFormed 1 loaded.index.root := by
    rcases loaded.shaped with new | shape
    · rw [TmpIndex.leaves, new] at member
      exact absurd member (by simp [newNode, TmpIndexNode.leaves, TmpIndexNode.leavesOf])
    · exact shape
  have closes : Closes EncodedToken.arity 1 formula := closes_of_mem_leaves shape member
  have complete : formula.IsQueryCode := by
    rw [EncodedFormula.isQueryCode_iff]
    exact (closes_congr fun token inside => (patternArity_constant (constants token inside)).symm).mp closes
  have noRange : ∀ token ∈ formula, token.isRange ≠ true := fun token inside range =>
    isRange_ne_of_constant (constants token inside) range
  have answerable : Answerable (D := D) [] none loaded.index formula :=
    ⟨complete, fun token inside range => absurd range (noRange token inside),
      fun ranges => ranges.elim fun token both => absurd both.2 (noRange token both.1)⟩
  -- the only leaf that matches is the one of the formula
  have matched : matching (accepts (forFormula D formula)) (fun _ => none) formula loaded.index.root =
      [(formula, leaf)] := by
    rw [matching, ← filter_key loaded.shaped.leaves_nodup member]
    refine List.filter_congr fun entry _ => decide_eq_decide.mpr ?_
    exact matches_constants constants
  have folded : (leafNodes (matching (accepts (forFormula D formula)) (fun _ => none) formula
      loaded.index.root)).foldlM (absorb (forFormula D formula) loaded.index query 0 (checkedSize 0 1 1) 1)
        nothing = some ⟨[leafNode leaf], 1, [], [leaf.id]⟩ := by
    rw [matched]
    rfl
  obtain ⟨enough, found⟩ := getResult_folded shape answerable folded
  exact ⟨enough, fun fuel more => (found fuel more).2 loaded.handle (loaded.represents shape)⟩

/-! ### Queries that go on behind a leaf -/

/-- An entry as the constructor of the table leaves it. -/
def Unsolved {Node Iterator : Type} (entry : BacktrackCtxt D Node Iterator) : Prop :=
  entry = .qvar false .unset ∨ ∃ bounds, entry = .range false bounds none none

theorem setupTable_unsolved {Node Iterator : Type} (context : SearchContext D) (triples : List NodeTriple) :
    ∀ {table table' : List (BacktrackCtxt D Node Iterator)}, context.setupTable triples table = some table' →
      ∃ more, table' = table ++ more ∧ ∀ entry ∈ more, Unsolved entry := by
  induction triples with
  | nil =>
    intro table table' setup
    obtain rfl := Option.some.inj setup
    exact ⟨[], (List.append_nil _).symm, fun entry member => absurd member List.not_mem_nil⟩
  | cons triple rest ih =>
    intro table table' setup
    have grows : ∀ {entry : BacktrackCtxt D Node Iterator}, Unsolved entry →
        context.setupTable rest (table ++ [entry]) = some table' →
          ∃ more, table' = table ++ more ∧ ∀ entry ∈ more, Unsolved entry := by
      intro entry unsolved later
      obtain ⟨more, rfl, all⟩ := ih later
      exact ⟨entry :: more, by rw [List.append_assoc, List.singleton_append], List.forall_mem_cons.mpr ⟨unsolved, all⟩⟩
    rw [setupTable] at setup
    split_ifs at setup with isConst old isQvar
    · exact ih setup
    · exact ih setup
    · exact grows (Or.inl rfl) setup
    · obtain ⟨limits, _, later⟩ := Option.bind_eq_some_iff.mp setup
      exact grows (Or.inr ⟨limits, rfl⟩) later

/-- The address of a leaf has no children to ask for. -/
theorem isLong_leaf {handle : IndexHandle} {leaf : TmpLeaf} {address : Nat}
    (represents : Represents Fits handle.image (leafNode leaf) address) : handle.isLong address = none := by
  obtain ⟨holds, _⟩ := represents.leaf rfl
  rw [IndexHandle.isLong, nodeType_of_leaf holds]
  rfl

/-- **At a leaf the walk cannot go on**: an assertion fails. -/
theorem searchStep_leaf {handle : IndexHandle} (context : SearchContext D) (query : DbQuery)
    {offset size maxTotal fuel : Nat} {state : SearchState D Nat ImageIterator} {triple : NodeTriple}
    (atLeaf : handle.isLong state.currentNode = none) (unfinished : state.collected.found < maxTotal)
    (current : context.expr[state.currentToken]? = some triple)
    (entries : triple.type ≠ .const → ∀ entry, state.bkTable[triple.arity]? = some entry → Unsolved entry ∨
      triple.type = .qvar ∧ ∃ iterator, entry = .qvar true iterator ∧ iterator.backtrackIterators ≠ []) :
    searchStep indexAccessor handle query context offset size maxTotal fuel state = none := by
  have noChild : ∀ token, indexAccessor.getChild handle state.currentNode token = none := fun token => by
    simp only [indexAccessor, atLeaf, Option.bind_eq_bind, Option.bind_none]
  have noChildren : indexAccessor.getChildrenIterator handle state.currentNode = none := by
    simp only [indexAccessor, atLeaf, Option.bind_eq_bind, Option.bind_none]
  have unsolved : ∀ entry : BacktrackCtxt D Nat ImageIterator, Unsolved entry →
      entry.solve indexAccessor handle context.decoder fuel state.currentNode = none := by
    rintro entry (rfl | ⟨bounds, rfl⟩)
    · simp only [BacktrackCtxt.solve, IndexIterator.unset, IndexIterator.set, IndexIterator.next, noChildren,
        Option.bind_eq_bind, Option.bind_some, Option.bind_none]
    · simp only [BacktrackCtxt.solve, noChildren, Option.bind_eq_bind, Option.bind_none]
  rw [searchStep, if_pos unfinished, current]
  dsimp only
  cases type : triple.type with
  | const => simp only [noChild, Option.bind_eq_bind, Option.bind_none]
  | range =>
    dsimp only
    rw [solveSpecial]
    cases found : state.bkTable[triple.arity]? with
    | none => rfl
    | some entry =>
      have fresh := (entries (by rw [type]; decide) entry found).resolve_right fun solved => by
        rw [type] at solved
        cases solved.1
      simp only [Option.bind_eq_bind, Option.bind_some, unsolved entry fresh, Option.bind_none]
  | qvar =>
    dsimp only
    cases found : state.bkTable[triple.arity]? with
    | none => rfl
    | some entry =>
      rcases entries (by rw [type]; decide) entry found with fresh | ⟨_, iterator, rfl, nonempty⟩
      · have stuck : solveSpecial indexAccessor handle context fuel state triple.arity = none := by
          rw [solveSpecial, found]
          simp only [Option.bind_eq_bind, Option.bind_some, unsolved entry fresh, Option.bind_none]
        rcases fresh with rfl | ⟨bounds, rfl⟩
        · exact stuck
        · exact stuck
      · obtain ⟨first, path, is⟩ := List.exists_cons_of_ne_nil
          (show iterator.getPath ≠ [] from fun empty => nonempty (List.reverse_eq_nil_iff.mp empty))
        show ((replay indexAccessor handle iterator.getPath state.currentNode).bind _) = none
        rw [is, replay]
        cases indexAccessor.getToken handle first with
        | none => rfl
        | some token => simp only [noChild, Option.bind_eq_bind, Option.bind_some, Option.bind_none]

/-- Where the entry behind the first variable is looked up, it has a number of its own, or it is that variable again. -/
theorem arity_triple_second {token next : EncodedToken} (variable' : IsVariable token.role) :
    (triple (extend [] token) next).arity ≠ 0 ∨ (triple (extend [] token) next).type = .qvar ∨
      (triple (extend [] token) next).type = .const := by
  have one : (extend [] token).length = 1 := by
    rcases variable' with role | ⟨id, role⟩ <;> simp [extend, opens, role]
  unfold triple
  cases next.role with
  | constant => exact Or.inr (Or.inr rfl)
  | named id => exact Or.inr (Or.inl rfl)
  | anonymous => exact Or.inr (Or.inl rfl)
  | restricted id =>
    refine Or.inl ?_
    show (extend [] token).length ≠ 0
    rw [one]
    decide

/-- The first variable is solved with a leaf, over the image. -/
theorem solve_image (context : SearchContext D) (loaded : LoadedIndex) (shape : WellFormed 1 loaded.index.root) :
    ∃ enough, ∀ fuel, enough ≤ fuel → ∃ iterator address leaf,
      (BacktrackCtxt.qvar false .unset : BacktrackCtxt D Nat ImageIterator).solve indexAccessor loaded.handle
          context.decoder fuel loaded.handle.root = some (.qvar true iterator, some address) ∧
        iterator.backtrackIterators ≠ [] ∧ Represents Fits loaded.handle.image (leafNode leaf) address := by
  have root := loaded.represents shape
  have fresh : Fresh context .anonymous (.qvar false .unset : Entry D) := ⟨rfl, rfl⟩
  obtain ⟨term, rest, entry', terms, ⟨enough, solved⟩, offers⟩ :=
    @solve_qvar D context loaded.index 0 .anonymous (Or.inl rfl) _ fresh loaded.index.root shape
  have member : term ∈ loaded.index.root.terms 1 := terms ▸ List.mem_cons_self
  obtain ⟨leaf, isLeaf⟩ := (@wellFormed_of_mem_terms 0 loaded.index.root 1 shape _ _ member).eq_leafNode
  have closes := ((@mem_terms_iff 0 loaded.index.root 1 shape _ _).mp member).1
  have spelt := offers.solvedAs
  refine ⟨enough, fun fuel more => ?_⟩
  obtain ⟨result, onImage, entries, nodes⟩ := BacktrackCtxt.solve_follows (simulates_indexAccessor root)
    context.decoder fuel (.qvar false IndexIterator.same_unset) root _ (solved fuel more)
  obtain ⟨ctxt, node⟩ := result
  cases nodes with
  | @some _ address represents =>
    cases entries with
    | range => exact spelt.elim
    | @qvar isSolved iterator iterator' same =>
      obtain ⟨rfl, spells, _⟩ := spelt
      refine ⟨iterator', address, leaf, onImage, fun empty => ?_, isLeaf ▸ represents⟩
      have related := same.backtrackIterators
      rw [empty, List.forall₂_nil_right_iff] at related
      rw [related, pathTokens_nil] at spells
      rw [← spells] at closes
      exact not_closes_nil closes

/-- **A search that begins with a variable goes no further** than the leaf it solves the variable with. -/
theorem search_variable (context : SearchContext D) (loaded : LoadedIndex) (shape : WellFormed 1 loaded.index.root)
    {id : Nat} {next : NodeTriple} {rest : List NodeTriple} (expr : context.expr = ⟨.qvar, id, 0⟩ :: next :: rest)
    (behind : next.arity ≠ 0 ∨ next.type = .qvar ∨ next.type = .const) (query : DbQuery) (fuel : Nat) :
    context.search indexAccessor loaded.handle query fuel 0 1 1 = none := by
  by_contra found
  obtain ⟨collected, searched⟩ := Option.ne_none_iff_exists'.mp found
  obtain ⟨table, setup, looped⟩ := Option.bind_eq_some_iff.mp searched
  obtain ⟨more, rfl, unsolved⟩ : ∃ more, table = [.qvar false .unset] ++ more ∧ ∀ entry ∈ more, Unsolved entry := by
    rw [expr] at setup
    exact setupTable_unsolved context (next :: rest) setup
  obtain ⟨enough, solved⟩ := solve_image context loaded shape
  -- with enough fuel the same search comes to the leaf
  have later := (searchStep_mono indexAccessor loaded.handle query context 0 (checkedSize 0 1 1) 1).loop.le
    (le_max_left fuel enough) looped
  obtain ⟨iterator, address, leaf, first, nonempty, represents⟩ := solved (max fuel enough) (le_max_right fuel enough)
  have round : searchStep indexAccessor loaded.handle query context 0 (checkedSize 0 1 1) 1 (max fuel enough)
      ⟨[.qvar false .unset] ++ more, 0, loaded.handle.root, 0, nothing⟩ =
        some (.inl ⟨[.qvar true iterator] ++ more, 1, address, 1, nothing⟩) := by
    rw [searchStep, if_pos (show (nothing : Collected Nat).found < 1 from Nat.zero_lt_one), expr]
    simp only [List.singleton_append, List.getElem?_cons_zero, Option.bind_eq_bind, Option.bind_some, solveSpecial, first,
      advance, List.set_cons_zero]
  have stuck : searchStep indexAccessor loaded.handle query context 0 (checkedSize 0 1 1) 1 (max fuel enough)
      ⟨[.qvar true iterator] ++ more, 1, address, 1, nothing⟩ = none := by
    refine @searchStep_leaf D loaded.handle context query 0 (checkedSize 0 1 1) 1 (max fuel enough) _ next
      (isLong_leaf represents) Nat.zero_lt_one (by rw [expr]; rfl) fun special entry inside => ?_
    have inside : ([.qvar true iterator] ++ more)[next.arity]? = some entry := inside
    rw [List.singleton_append] at inside
    cases number : next.arity with
    | zero =>
      rw [number, List.getElem?_cons_zero] at inside
      obtain rfl := Option.some.inj inside
      have isQvar := (behind.resolve_left (not_not.mpr number)).resolve_right special
      exact Or.inr ⟨isQvar, iterator, rfl, nonempty⟩
    | succ number' =>
      rw [number, List.getElem?_cons_succ] at inside
      exact Or.inl (unsolved entry (List.mem_of_getElem? inside))
  cases count : max fuel enough with
  | zero =>
    rw [count] at later
    cases later
  | succ count' =>
    rw [count, Fuel.loop_inl (count ▸ round)] at later
    cases count' with
    | zero => cases later
    | succ count'' =>
      rw [Fuel.loop, ← count, stuck] at later
      cases later

/-- **A search that begins with a variable or range and goes on** behind it fails in an assertion. -/
theorem getResult_hole (D : Doubles) (loaded : LoadedIndex) (shape : WellFormed 1 loaded.index.root)
    {token : EncodedToken} {rest : EncodedFormula} (hole : token.role ≠ .constant) (goesOn : rest ≠ []) (query : DbQuery)
    (fuel : Nat) : (forFormula D (token :: rest)).getResult indexAccessor loaded.handle query fuel 0 1 1 = none := by
  obtain ⟨next, rest, rfl⟩ := List.exists_cons_of_ne_nil goesOn
  have expr : (forFormula D (token :: next :: rest)).expr =
      triple [] token :: triple (extend [] token) next :: triples (extend (extend [] token) next) rest :=
    (compiled_new firstId [] none (token :: next :: rest)).expr
  have none : (forFormula D (token :: next :: rest)).search indexAccessor loaded.handle query fuel 0 1 1 = none := by
    have variable' : IsVariable token.role → triple [] token = ⟨.qvar, token.id, 0⟩ →
        (forFormula D (token :: next :: rest)).search indexAccessor loaded.handle query fuel 0 1 1 = none := by
      intro variable' first
      rw [first] at expr
      exact search_variable _ loaded shape expr (arity_triple_second variable') query fuel
    cases role : token.role with
    | constant => exact absurd role hole
    | named id => exact variable' (Or.inr ⟨id, role⟩) (by rw [triple, role]; rfl)
    | anonymous => exact variable' (Or.inl role) (by rw [triple, role]; rfl)
    | restricted id =>
      have first : triple [] token = ⟨.range, token.id, 0⟩ := by rw [triple, role]; rfl
      rw [search, expr, setupTable, first]
      rfl
  rw [getResult, none]
  rfl

end SearchContext

end MathWebSearch
