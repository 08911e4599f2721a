/-
**A relative cutoff of 100 percent** (`SchemaEngine::getSchemata` with `RELATIVE`).

`getExprDepth` counts the edges down to the deepest node, and `reduceFormula` keeps the nodes with fewer nodes above them
than the cutoff. So the cutoff of a whole tree takes its deepest nodes away, but for heads.

* `DeepHeads` — from a level on there are heads only.
* `unchanged_iff` — **which formulae are left as they are** at a cutoff.
* `KeepsEverything` — what 100 percent are to do.
* `keepsEverything_iff` — **when they do it**.
* `not_keepsEverything` — `f(x)` loses its argument.
-/

import MathWebSearch.Query.SchemaGroups

namespace MathWebSearch

open CmmlToken PartialTree

namespace SchemaEngine

/-! ### What is left as it is -/

section Heads

variable {depth : Nat}

/-- The node at the position is the first child node of one whose tag begins with `apply`. -/
def HeadAt (tree : CmmlToken) (position : List Nat) : Prop :=
  ∃ front parent, position = front ++ [0] ∧ tree.at? front = some parent ∧ headed parent = true

/-- From the level `depth` on, there are heads only. -/
def DeepHeads (depth : Nat) (tree : CmmlToken) : Prop :=
  ∀ position node, tree.at? position = some node → depth ≤ position.length → HeadAt tree position

theorem HeadAt.ne_nil {tree : CmmlToken} {position : List Nat} (head : HeadAt tree position) : position ≠ [] := by
  obtain ⟨front, -, rfl, -, -⟩ := head
  exact List.append_ne_nil_of_right_ne_nil _ (List.cons_ne_nil _ _)

theorem headAt_singleton_iff {tree : CmmlToken} {place : Nat} : HeadAt tree [place] ↔ place = 0 ∧ headed tree = true := by
  constructor
  · rintro ⟨front, parent, split, above, isHead⟩
    obtain ⟨rfl, zero⟩ := List.append_inj' (show [] ++ [place] = front ++ [0] from split) rfl
    rw [at?_nil] at above
    obtain rfl := Option.some.inj above
    exact ⟨List.singleton_inj.mp zero, isHead⟩
  · rintro ⟨rfl, isHead⟩
    exact ⟨[], tree, rfl, at?_nil tree, isHead⟩

theorem headAt_cons_iff {tree child : CmmlToken} {place : Nat} (found : tree.getChildNodes[place]? = some child)
    {rest : List Nat} (some : rest ≠ []) : HeadAt tree (place :: rest) ↔ HeadAt child rest := by
  constructor
  · rintro ⟨front, parent, split, above, isHead⟩
    cases front with
    | nil => exact absurd (List.cons.inj split).2 some
    | cons first front =>
      obtain ⟨rfl, behind⟩ := List.cons.inj split
      rw [at?_cons, found, Option.bind_some] at above
      exact ⟨front, parent, behind, above, isHead⟩
  · rintro ⟨front, parent, rfl, above, isHead⟩
    exact ⟨place :: front, parent, rfl, by rw [at?_cons, found, Option.bind_some, above], isHead⟩

/-- **A tree is left alone** if there are heads only from the depth on. -/
theorem intact_skeleton_iff (tree : CmmlToken) : ∀ level, Intact headed depth level tree.skeleton ↔
    ∀ position node, tree.at? position = some node → position ≠ [] → depth ≤ level + position.length →
      HeadAt tree position := by
  induction tree with
  | mk tag attributes text children ih =>
    intro level
    rw [skeleton_eq, intact_node_iff, getChildNodes_mk, List.length_map, List.forall_mem_map]
    constructor
    · rintro ⟨keeps, below⟩ position node found nonempty deep
      cases position with
      | nil => exact absurd rfl nonempty
      | cons place rest =>
        obtain ⟨child, atPlace, found⟩ := Option.bind_eq_some_iff.mp ((at?_cons _ _ _).symm.trans found)
        have member : child ∈ children := List.mem_of_getElem? atPlace
        by_cases single : rest = []
        · subst single
          have here := keeps (List.ne_nil_of_mem (List.mem_map_of_mem member))
          rw [List.length_singleton] at deep
          obtain ⟨isHead, one⟩ := here.resolve_left (by omega)
          have low : place < children.length := (List.getElem?_eq_some_iff.mp atPlace).1
          exact headAt_singleton_iff.mpr ⟨by omega, isHead⟩
        · rw [List.length_cons] at deep
          have inner := (ih child member (level + 1)).mp (below child member) rest node found single (by omega)
          exact (headAt_cons_iff atPlace single).mpr inner
    · intro heads
      refine ⟨fun nonempty => ?_, fun child member => (ih child member (level + 1)).mpr ?_⟩
      · by_cases above : level + 1 < depth
        · exact .inl above
        · -- the last child node is a head, so it is the only one
          have some : children ≠ [] := fun empty => nonempty (by rw [empty, List.map_nil])
          have positive := List.length_pos_iff.mpr some
          have last : children[children.length - 1]? = .some (children.getLast some) := by
            rw [← List.getLast?_eq_getElem?, List.getLast?_eq_some_getLast some]
          have head := heads [children.length - 1] (children.getLast some)
            (by rw [at?_cons, getChildNodes_mk, last, Option.bind_some, at?_nil]) (List.cons_ne_nil _ _)
            (by rw [List.length_singleton]; omega)
          obtain ⟨zero, isHead⟩ := headAt_singleton_iff.mp head
          exact .inr ⟨isHead, by omega⟩
      · intro position node found nonempty deep
        obtain ⟨place, atPlace⟩ := List.getElem?_of_mem member
        refine (headAt_cons_iff (show (CmmlToken.mk tag attributes text children).getChildNodes[place]? = _ from atPlace)
          nonempty).mp (heads (place :: position) node ?_ (List.cons_ne_nil _ _) ?_)
        · rw [at?_cons, getChildNodes_mk, atPlace, Option.bind_some, found]
        · rw [List.length_cons]
          omega

theorem deepHeads_iff {tree : CmmlToken} : DeepHeads depth tree ↔ depth ≠ 0 ∧ Intact headed depth 0 tree.skeleton := by
  rw [intact_skeleton_iff]
  constructor
  · intro heads
    refine ⟨fun zero => ?_, fun position node found _ deep => heads position node found (by omega)⟩
    exact (heads [] tree (at?_nil tree) (by omega)).ne_nil rfl
  · rintro ⟨positive, heads⟩ position node found deep
    refine heads position node found (fun empty => ?_) (by omega)
    rw [empty] at deep
    exact positive (Nat.le_zero.mp deep)

variable {self : SchemaEngine} {enc : Str × Nat → EncodedToken} {expr : EncodedFormula} {tree : CmmlToken}

/-- **Which formulae are left as they are** at a cutoff. -/
theorem unchanged_iff (spelt : self.Spelt enc expr tree) (cutoff : Nat) :
    self.reduceEncoded expr cutoff = .ok expr ↔ DeepHeads cutoff tree := by
  have whole : expr = (subtrees tree).map (enc ∘ symbol) := by rw [spelt.formula, symbols, List.map_map]
  rw [reduceEncoded_spelt spelt, Except.ok.injEq, deepHeads_iff]
  by_cases zero : cutoff = 0
  · subst zero
    rw [keptTree_zero, word_stub, List.map_nil, whole, subtrees_eq]
    exact ⟨fun same => absurd same.symm (List.cons_ne_nil _ _), fun both => absurd rfl both.1⟩
  · rw [keptTree_pos zero]
    constructor
    · intro same
      refine ⟨zero, intact_of_length (whole_skeleton tree) ?_⟩
      rw [word_skeleton, ← List.length_map (enc ∘ symbol), same, whole, List.length_map]
    · rintro ⟨-, intact⟩
      rw [intact.cut_eq, word_skeleton, whole]

end Heads

/-! ### Variables that are printed -/

theorem qvarNames_numberedAll {children : List CmmlToken}
    (each : ∀ child ∈ children, ∀ number,
      qvarNames (numbered (fun inner => contentOf inner.getMeaning) child.skeleton number).1.toCmml = [] ↔
        ∀ inner ∈ subtrees child, (contentOf inner.getMeaning).1 ≠ qvarTag) : ∀ number,
    ((numberedAll (fun inner => contentOf inner.getMeaning) (children.map skeleton) number).1.map
        SchemaTree.toCmml).flatMap qvarNames = [] ↔
      ∀ inner ∈ children.flatMap subtrees, (contentOf inner.getMeaning).1 ≠ qvarTag := by
  induction children with
  | nil =>
    intro number
    rw [List.map_nil, numberedAll_nil]
    exact ⟨fun _ inner member => absurd member List.not_mem_nil, fun _ => rfl⟩
  | cons child rest ih =>
    intro number
    rw [List.forall_mem_cons] at each
    rw [List.map_cons, numberedAll_cons, List.map_cons, List.flatMap_cons, List.append_eq_nil_iff, each.1, ih each.2,
      List.flatMap_cons, List.forall_mem_append]

/-- What is printed of a whole tree has no variable if no tag is that of one. -/
theorem qvarNames_numbered (tree : CmmlToken) : ∀ number,
    qvarNames (numbered (fun inner => contentOf inner.getMeaning) tree.skeleton number).1.toCmml = [] ↔
      ∀ inner ∈ subtrees tree, (contentOf inner.getMeaning).1 ≠ qvarTag := by
  induction tree with
  | mk tag attributes text children ih =>
    intro number
    have below := qvarNames_numberedAll ih number
    rw [skeleton_eq, numbered_node, SchemaTree.toCmml, toCmmlAll_eq, qvarNames_eq, getChildNodes_mk, getChildNodes_mk,
      List.append_eq_nil_iff, below, subtrees_eq, List.forall_mem_cons, getChildNodes_mk]
    refine and_congr_left fun _ => ?_
    split_ifs with qvar <;> rw [isVar_iff, getTag_mk] at qvar
    · exact ⟨fun empty => empty.elim, fun other => absurd qvar other⟩
    · exact ⟨fun _ => qvar, fun _ => rfl⟩

/-! ### One hundred percent -/

/-- The product is exact. -/
theorem cutoff_hundred (decoder : ExpressionDecoder) {tree : CmmlToken} (shallow : tree.getExprDepth < 256) :
    (⟨decoder, .relative⟩ : SchemaEngine).cutoff 100 tree = tree.getExprDepth := by
  have exact : ∀ levels < 256, roundDouble (roundDouble (hundredth * 100) * levels) / 2 ^ 59 % 2 ^ 8 = levels := by
    decide +kernel
  exact exact _ shallow

/-- What 100 percent are to do to the formulae of a request: every formula is left as it is, two of them share a schema
if and only if they are equal, and no schema has a variable. -/
structure KeepsEverything (engine : SchemaEngine) (order : Arrangement) (formulae : List (EncodedFormula × CmmlToken)) :
    Prop where
  unchanged : ∀ pair ∈ formulae, engine.reduceEncoded pair.1 (engine.cutoff 100 pair.2) = .ok pair.1
  answers : ∃ result, engine.getSchemata order formulae 0 100 = .ok result ∧
    (∀ i j : Nat, ∀ pair pair', formulae[i]? = some pair → formulae[j]? = some pair' →
      ((∃ sch ∈ result.schemata, i ∈ sch.formulae ∧ j ∈ sch.formulae) ↔ pair.1 = pair'.1)) ∧
    ∀ sch ∈ result.schemata, qvarNames sch.root = []

section Hundred

open ExpressionEncoder

variable {D : Doubles} {last : MeaningDictionary} {formulae : List (EncodedFormula × CmmlToken)}

/-- The schema of a formula that is left as it is. -/
theorem schemaOf_intact {cutoff : Nat} {tree : CmmlToken} (heads : DeepHeads cutoff tree) :
    schemaOf cutoff tree = (numbered (fun inner => contentOf inner.getMeaning) tree.skeleton 1).1 := by
  obtain ⟨positive, intact⟩ := deepHeads_iff.mp heads
  rw [schemaOf, if_neg positive, keptTree_pos positive, intact.cut_eq]

/-- Equal formulae have the same meanings. -/
theorem meanings_eq {pair pair' : EncodedFormula × CmmlToken} (read : Read D last pair) (read' : Read D last pair')
    (same : pair.1 = pair'.1) {P : Str → Prop} : (∀ inner ∈ subtrees pair.2, P inner.getMeaning) ↔
      ∀ inner ∈ subtrees pair'.2, P inner.getMeaning := by
  have words : (subtrees pair.2).map (code (namesIn last) ∘ symbol) = (subtrees pair'.2).map (code (namesIn last) ∘ symbol) := by
    rw [← List.map_map, ← List.map_map]
    exact read.formula.symm.trans (same.trans read'.formula)
  have symbols := (read.symbols_eq read' (List.Subset.refl _) (List.Subset.refl _)).mp words
  have meanings : (subtrees pair.2).map CmmlToken.getMeaning = (subtrees pair'.2).map CmmlToken.getMeaning := by
    have firsts := congrArg (List.map Prod.fst) symbols
    rwa [List.map_map, List.map_map] at firsts
  have all : ∀ tree, (∀ inner ∈ subtrees tree, P inner.getMeaning) ↔ ∀ meaning ∈ (subtrees tree).map CmmlToken.getMeaning, P meaning :=
    fun tree => List.forall_mem_map.symm
  rw [all, all, meanings]

/-- **When 100 percent keep everything.** For encodings of trees of a depth below 255, without variables: there are at
most `2 ^ 32` formulae, the deepest nodes of each are heads, and no tag is read back as that of a variable. -/
theorem keepsEverything_iff (encodings : ∀ pair ∈ formulae, Encoding D last pair ∧ Narrowed pair.2)
    (few : last.map.length < 2 ^ 24 - 161) (shallow : ∀ pair ∈ formulae, pair.2.getExprDepth < 255) (order : Arrangement) :
    KeepsEverything ⟨.new last, .relative⟩ order formulae ↔ formulae.length ≤ 2 ^ 32 ∧
      ∀ pair ∈ formulae, DeepHeads pair.2.getExprDepth pair.2 ∧
        ∀ inner ∈ subtrees pair.2, (contentOf inner.getMeaning).1 ≠ qvarTag := by
  have read : ∀ pair ∈ formulae, Read D last pair := fun pair member =>
    (encodings pair member).1.read (encodings pair member).2 few
  have spelt : (⟨.new last, .relative⟩ : SchemaEngine).SpeltAll (code (namesIn last)) formulae := fun pair member =>
    (read pair member).spelt .relative
  have cutoff : ∀ pair ∈ formulae, (⟨.new last, .relative⟩ : SchemaEngine).cutoff 100 pair.2 = pair.2.getExprDepth :=
    fun pair member => cutoff_hundred _ (lt_trans (shallow pair member) (by decide))
  have unchanged : ∀ pair ∈ formulae,
      ((⟨.new last, .relative⟩ : SchemaEngine).reduceEncoded pair.1
          ((⟨.new last, .relative⟩ : SchemaEngine).cutoff 100 pair.2) = .ok pair.1 ↔
        DeepHeads pair.2.getExprDepth pair.2) := fun pair member => by
    rw [cutoff pair member]
    exact unchanged_iff (spelt pair member) _
  -- the variables of a schema whose formulae are left as they are
  have variableFree : ∀ pair ∈ formulae, DeepHeads pair.2.getExprDepth pair.2 →
      (qvarNames (schemaOf ((⟨.new last, .relative⟩ : SchemaEngine).cutoff 100 pair.2) pair.2).toCmml = [] ↔
        ∀ inner ∈ subtrees pair.2, (contentOf inner.getMeaning).1 ≠ qvarTag) := fun pair member heads => by
    rw [cutoff pair member, schemaOf_intact heads]
    exact qvarNames_numbered pair.2 1
  constructor
  · rintro ⟨left, result, got, shares, free⟩
    have small : formulae.length ≤ 2 ^ 32 := by
      by_contra many
      have inside : 2 ^ 32 < formulae.length := not_le.mp many
      have found := List.getElem?_eq_getElem inside
      obtain ⟨sch, among, belongs, -⟩ := (shares (2 ^ 32) (2 ^ 32) _ _ found found).mpr rfl
      exact absurd (number_lt spelt got sch among _ belongs) (lt_irrefl _)
    refine ⟨small, fun pair member => ?_⟩
    have heads := (unchanged pair member).mp (left pair member)
    refine ⟨heads, ?_⟩
    obtain ⟨i, found⟩ := List.getElem?_of_mem member
    obtain ⟨sch, among, belongs, -⟩ := (shares i i pair pair found found).mpr rfl
    obtain ⟨_, got', -, rooted⟩ := @getSchemata_shared _ _ _ 100 spelt small order 0
    obtain rfl := Except.ok.inj (got.symm.trans got')
    obtain ⟨j, belongs', pair', found', root⟩ := rooted sch among
    have member' := List.mem_of_getElem? found'
    have same := (shares i j pair pair' found found').mp ⟨sch, among, belongs, belongs'⟩
    have none := free sch among
    rw [root, variableFree pair' member' ((unchanged pair' member').mp (left pair' member'))] at none
    exact (meanings_eq (read pair member) (read pair' member') same (P := fun meaning => (contentOf meaning).1 ≠ qvarTag)).mpr
      none
  · rintro ⟨small, fine⟩
    have left := fun pair member => (unchanged pair member).mpr (fine pair member).1
    obtain ⟨result, got, shared, rooted⟩ := @getSchemata_shared _ _ _ 100 spelt small order 0
    refine ⟨left, result, got, fun i j pair pair' found found' => ?_, fun sch among => ?_⟩
    · have member := List.mem_of_getElem? found
      have member' := List.mem_of_getElem? found'
      have together : ∀ sch ∈ result.schemata, i ∈ sch.formulae → (j ∈ sch.formulae ↔ pair.1 = pair'.1) := by
        intro sch among belongs
        rw [shared.together sch among i j pair pair' found found' belongs, left pair member, left pair' member',
          Except.ok.injEq]
        exact eq_comm
      constructor
      · rintro ⟨sch, among, belongs, belongs'⟩
        exact (together sch among belongs).mp belongs'
      · intro same
        have inside := (shared.partition rfl).mem_iff.mpr (List.mem_range.mpr (List.getElem?_eq_some_iff.mp found).1)
        obtain ⟨sch, among, belongs⟩ := List.mem_flatMap.mp inside
        exact ⟨sch, among, belongs, (together sch among belongs).mpr same⟩
    · obtain ⟨_, -, pair, found, root⟩ := rooted sch among
      have member := List.mem_of_getElem? found
      rw [root]
      exact (variableFree pair member (fine pair member).1).mpr (fine pair member).2

/-- `<apply><cn>3</cn></apply>` is kept: its only deepest node is a head. -/
theorem keepsEverything_applied : KeepsEverything ⟨.new appliedNames, .relative⟩ largestFirst [appliedFormula] := by
  obtain ⟨⟨encoding, narrowed, -⟩, few⟩ := encoding_applied
  have depth : appliedThree.getExprDepth = 1 := by decide +kernel
  have encodings : ∀ pair ∈ [appliedFormula], Encoding .whole appliedNames pair ∧ Narrowed pair.2 :=
    List.forall_mem_singleton.mpr ⟨encoding, narrowed⟩
  have shallow : ∀ pair ∈ [appliedFormula], pair.2.getExprDepth < 255 :=
    List.forall_mem_singleton.mpr (depth.trans_lt (by decide))
  have heads : DeepHeads 1 appliedThree := by
    intro position node found deep
    cases position with
    | nil => exact absurd deep (by decide)
    | cons place rest =>
      obtain ⟨child, atPlace, found⟩ := Option.bind_eq_some_iff.mp ((at?_cons _ _ _).symm.trans found)
      have low : place < 1 := (List.getElem?_eq_some_iff.mp atPlace).1
      obtain rfl : place = 0 := Nat.lt_one_iff.mp low
      obtain rfl := Option.some.inj atPlace
      cases rest with
      | nil => exact headAt_singleton_iff.mpr ⟨rfl, by decide⟩
      | cons next rest => cases found
  refine (keepsEverything_iff encodings few shallow largestFirst).mpr ⟨by decide, List.forall_mem_singleton.mpr ⟨?_, ?_⟩⟩
  · show DeepHeads appliedThree.getExprDepth appliedThree
    rw [depth]
    exact heads
  · rw [show subtrees appliedFormula.2 = [appliedThree, three] from rfl]
    decide

/-- `<r><cn>3</cn></r>`, encoded into an empty dictionary. -/
def encodedWide : Round .whole × Int := encode .harvest (.new .empty) ⟨false⟩ (.root (wideTree three 1)) none

/-- The dictionary that the encoder leaves. -/
def wideNames : MeaningDictionary := encodedWide.1.encoder.meaningDictionary

/-- The formula with its tree. -/
def wideFormula : EncodedFormula × CmmlToken := (encodedWide.1.encodedFormula, wideTree three 1)

theorem encoding_wide : (Encoding .whole wideNames wideFormula ∧ Narrowed (wideTree three 1)) ∧
    wideNames.map.length < 2 ^ 24 - 161 := by
  obtain ⟨returned, short⟩ := @encode_wideTree .whole 1 (by decide)
  refine ⟨⟨⟨.new .empty, ⟨⟨[], rfl⟩, ⟨[], rfl⟩⟩, returned, rfl⟩, variableFree_wideTree 1, ?_⟩, lt_of_le_of_lt short (by decide)⟩
  exact forall_wideTree (by decide) (by decide)

/-- **`r(3)` loses its argument**: its depth is 1, and at a cutoff of 1 nothing is kept below the root. -/
theorem not_keepsEverything :
    (Encoding .whole wideNames wideFormula ∧ Narrowed (wideTree three 1)) ∧ (wideTree three 1).getExprDepth = 1 ∧
      (⟨.new wideNames, .relative⟩ : SchemaEngine).reduceEncoded wideFormula.1
        ((⟨.new wideNames, .relative⟩ : SchemaEngine).cutoff 100 (wideTree three 1)) ≠ .ok wideFormula.1 ∧
      ¬KeepsEverything ⟨.new wideNames, .relative⟩ largestFirst [wideFormula] := by
  obtain ⟨fits, few⟩ := encoding_wide
  have depth : (wideTree three 1).getExprDepth = 1 := by decide +kernel
  have loses : (⟨.new wideNames, .relative⟩ : SchemaEngine).reduceEncoded wideFormula.1
      ((⟨.new wideNames, .relative⟩ : SchemaEngine).cutoff 100 (wideTree three 1)) ≠ .ok wideFormula.1 := by
    have spelt := (fits.1.read fits.2 few).spelt .relative
    rw [cutoff_hundred _ (by rw [depth]; decide), depth, Ne, unchanged_iff spelt]
    intro heads
    obtain ⟨-, isHead⟩ := headAt_singleton_iff.mp (heads [0] three rfl le_rfl)
    exact absurd isHead (by decide)
  exact ⟨fits, depth, loses, fun keeps => loses (keeps.unchanged _ (List.mem_singleton.mpr rfl))⟩

end Hundred

end SchemaEngine

end MathWebSearch
