/-
**Trees with stubs**, and the words they spell.

A node has a label and children; a stub stands where a subtree is missing. Read in pre-order, a tree spells the labels of
its nodes, and stubs spell nothing.

* `Whole`, `Ranked` — a tree without stubs; a tree in which the label says how many children there are.
* `Open` — a tree whose word breaks off: from some node on everything is missing.
* `closes_word` — a whole ranked tree spells a complete word, and `exists_words` — every complete word is spelt by one.
* `exists_tree` — every word is spelt by an open tree or begins with the word of a whole one.
* `word_inj` — a complete word is spelt by one tree only.
* `Subtree`, `map` — the trees in a tree, and the tree with other labels.
-/

import MathWebSearch.Library.PrefixCode

open PrefixCode

/-- A tree with stubs. -/
inductive PartialTree (α : Type) where
  | stub
  | node (label : α) (children : List (PartialTree α))

namespace PartialTree

variable {α β : Type}

/-- Induction over the tree: a node after all of its children. -/
@[induction_eliminator]
theorem induction {motive : PartialTree α → Prop} (stub : motive stub)
    (node : ∀ label children, (∀ child ∈ children, motive child) → motive (node label children))
    (tree : PartialTree α) : motive tree :=
  @PartialTree.rec α motive (fun children => ∀ child ∈ children, motive child) stub node
    (fun _ member => nomatch member)
    (fun head rest ihHead ihRest child member => by
      rcases List.mem_cons.mp member with rfl | member
      · exact ihHead
      · exact ihRest child member) tree

mutual

/-- The labels in pre-order. -/
def word : PartialTree α → List α
  | stub => []
  | node label children => label :: words children

/-- The labels of trees, one after the other. -/
def words : List (PartialTree α) → List α
  | [] => []
  | tree :: rest => word tree ++ words rest

end

@[simp] theorem word_stub : word (stub : PartialTree α) = [] := by rw [word]

@[simp] theorem word_node (label : α) (children : List (PartialTree α)) :
    word (node label children) = label :: words children := by rw [word]

@[simp] theorem words_nil : words ([] : List (PartialTree α)) = [] := by rw [words]

@[simp] theorem words_cons (tree : PartialTree α) (rest : List (PartialTree α)) :
    words (tree :: rest) = word tree ++ words rest := by rw [words]

@[simp] theorem words_append (front back : List (PartialTree α)) : words (front ++ back) = words front ++ words back := by
  induction front with
  | nil => rw [List.nil_append, words_nil, List.nil_append]
  | cons tree rest ih => rw [List.cons_append, words_cons, words_cons, ih, List.append_assoc]

@[simp] theorem words_replicate_stub (count : Nat) : words (List.replicate count (stub : PartialTree α)) = [] := by
  induction count with
  | zero => exact words_nil
  | succ count ih => rw [List.replicate_succ, words_cons, word_stub, ih, List.nil_append]

theorem mem_words {label : α} {trees : List (PartialTree α)} : label ∈ words trees ↔ ∃ tree ∈ trees, label ∈ word tree := by
  induction trees with
  | nil => simp
  | cons tree rest ih => simp [ih]

/-! ### Whole trees -/

/-- A tree without stubs. -/
inductive Whole : PartialTree α → Prop
  | node {label : α} {children : List (PartialTree α)} : (∀ child ∈ children, Whole child) →
      Whole (node label children)

theorem Whole.children {label : α} {children : List (PartialTree α)} (whole : Whole (PartialTree.node label children)) :
    ∀ child ∈ children, Whole child := by
  cases whole with
  | node all => exact all

theorem not_whole_stub : ¬ Whole (stub : PartialTree α) := by
  intro whole
  cases whole

/-- A whole tree spells something. -/
theorem Whole.word_ne_nil {tree : PartialTree α} (whole : Whole tree) : word tree ≠ [] := by
  cases whole with
  | node all => rw [word_node]; exact List.cons_ne_nil _ _

theorem whole_iff {label : α} {children : List (PartialTree α)} :
    Whole (node label children) ↔ ∀ child ∈ children, Whole child := ⟨Whole.children, .node⟩

theorem words_ne_nil {trees : List (PartialTree α)} (whole : ∀ tree ∈ trees, Whole tree) (some : trees ≠ []) :
    words trees ≠ [] := by
  obtain ⟨tree, rest, rfl⟩ := List.exists_cons_of_ne_nil some
  rw [words_cons]
  exact List.append_ne_nil_of_left_ne_nil (whole tree List.mem_cons_self).word_ne_nil _

/-- The label of every node says how many children it has. -/
inductive Ranked (ar : α → Nat) : PartialTree α → Prop
  | stub : Ranked ar stub
  | node {label : α} {children : List (PartialTree α)} : children.length = ar label →
      (∀ child ∈ children, Ranked ar child) → Ranked ar (node label children)

section Words

variable {ar : α → Nat}

theorem Ranked.length {label : α} {children : List (PartialTree α)}
    (ranked : Ranked ar (PartialTree.node label children)) : children.length = ar label := by
  cases ranked with
  | node length _ => exact length

theorem Ranked.children {label : α} {children : List (PartialTree α)}
    (ranked : Ranked ar (PartialTree.node label children)) : ∀ child ∈ children, Ranked ar child := by
  cases ranked with
  | node _ all => exact all

theorem closes_words_of {trees : List (PartialTree α)} (each : ∀ tree ∈ trees, Closes ar 1 (word tree)) :
    Closes ar trees.length (words trees) := by
  induction trees with
  | nil => rw [words_nil]; trivial
  | cons tree rest ih =>
    have front := each tree List.mem_cons_self
    have back := ih fun other member => each other (List.mem_cons_of_mem _ member)
    rw [words_cons, List.length_cons, Nat.add_comm]
    exact front.append back

/-- **A whole ranked tree spells a complete word.** -/
theorem closes_word {tree : PartialTree α} (whole : Whole tree) (ranked : Ranked ar tree) :
    Closes ar 1 (word tree) := by
  induction tree with
  | stub => exact absurd whole not_whole_stub
  | node label children ih =>
    have each : ∀ child ∈ children, Closes ar 1 (word child) := fun child member =>
      ih child member (whole.children child member) (ranked.children child member)
    rw [word_node, closes_cons, Nat.zero_add, ← ranked.length]
    exact closes_words_of each

theorem closes_words {trees : List (PartialTree α)} (whole : ∀ tree ∈ trees, Whole tree)
    (ranked : ∀ tree ∈ trees, Ranked ar tree) : Closes ar trees.length (words trees) :=
  closes_words_of fun tree member => closes_word (whole tree member) (ranked tree member)

/-! ### Open trees -/

/-- A tree whose word breaks off: behind whole children the next one breaks off, and the others are missing. -/
inductive Open : PartialTree α → Prop
  | stub : Open stub
  | node {label : α} {done : List (PartialTree α)} {last : PartialTree α} {missing : Nat} :
      (∀ child ∈ done, Whole child) → Open last →
      Open (node label (done ++ last :: List.replicate missing stub))

/-- Trees whose common word breaks off. -/
def OpenAll (trees : List (PartialTree α)) : Prop :=
  ∃ done last missing, trees = done ++ last :: List.replicate missing stub ∧ (∀ child ∈ done, Whole child) ∧ Open last

theorem OpenAll.cons {tree : PartialTree α} {trees : List (PartialTree α)} (whole : Whole tree)
    (all : OpenAll trees) : OpenAll (tree :: trees) := by
  obtain ⟨done, last, missing, rfl, wholes, breaks⟩ := all
  exact ⟨tree :: done, last, missing, rfl, List.forall_mem_cons.mpr ⟨whole, wholes⟩, breaks⟩

theorem OpenAll.open {label : α} {children : List (PartialTree α)} (all : OpenAll children) :
    Open (PartialTree.node label children) := by
  obtain ⟨done, last, missing, rfl, wholes, breaks⟩ := all
  exact .node wholes breaks

/-- The first of trees whose word breaks off: it is whole, or it breaks off itself and the others are missing. -/
theorem OpenAll.cases {tree : PartialTree α} {trees : List (PartialTree α)} (all : OpenAll (tree :: trees)) :
    (Whole tree ∧ OpenAll trees) ∨ (Open tree ∧ ∃ missing, trees = List.replicate missing stub) := by
  obtain ⟨done, last, missing, same, wholes, breaks⟩ := all
  cases done with
  | nil =>
    obtain ⟨rfl, rfl⟩ := List.cons.inj same
    exact .inr ⟨breaks, missing, rfl⟩
  | cons first done =>
    obtain ⟨rfl, rfl⟩ := List.cons.inj same
    exact .inl ⟨wholes _ List.mem_cons_self, done, last, missing, rfl,
      fun other member => wholes other (List.mem_cons_of_mem _ member), breaks⟩

/-- **Every word** begins with the words of a number of whole trees, or breaks off before. -/
theorem exists_words (ar : α → Nat) (size : Nat) : ∀ (count : Nat) (text : List α), text.length ≤ size →
    (∃ trees rest, (∀ tree ∈ trees, Whole tree ∧ Ranked ar tree) ∧ trees.length = count ∧
      text = words trees ++ rest) ∨
    (∃ trees, OpenAll trees ∧ (∀ tree ∈ trees, Ranked ar tree) ∧ trees.length = count ∧ text = words trees) := by
  induction size with
  | zero =>
    intro count text short
    obtain rfl : text = [] := List.length_eq_zero_iff.mp (Nat.le_zero.mp short)
    cases count with
    | zero => exact .inl ⟨[], [], (fun _ member => nomatch member), rfl, rfl⟩
    | succ count =>
      refine .inr ⟨stub :: List.replicate count stub, ⟨[], stub, count, rfl, (fun _ member => nomatch member), .stub⟩,
        fun tree member => ?_, by rw [List.length_cons, List.length_replicate], by simp⟩
      obtain rfl : tree = stub := List.eq_of_mem_replicate (n := count + 1) member
      exact .stub
  | succ size ih =>
    intro count
    induction count with
    | zero => exact fun text _ => .inl ⟨[], text, (fun _ member => nomatch member), rfl, rfl⟩
    | succ count _ =>
      intro text short
      cases text with
      | nil =>
        refine .inr ⟨stub :: List.replicate count stub, ⟨[], stub, count, rfl, (fun _ member => nomatch member), .stub⟩,
          fun tree member => ?_, by rw [List.length_cons, List.length_replicate], by simp⟩
        obtain rfl : tree = stub := List.eq_of_mem_replicate (n := count + 1) member
        exact .stub
      | cons label text =>
        rw [List.length_cons, Nat.add_le_add_iff_right] at short
        -- the children of the first node, and then what stands behind it
        rcases ih (ar label) text short with ⟨children, rest, good, length, rfl⟩ | ⟨children, breaks, ranked, length, rfl⟩
        · have whole : Whole (node label children) := .node fun child member => (good child member).1
          have ranked : Ranked ar (node label children) := .node length fun child member => (good child member).2
          rw [List.length_append] at short
          rcases ih count rest (by omega) with ⟨trees, later, goods, lengths, rfl⟩ | ⟨trees, breaks, rankeds, lengths, rfl⟩
          · refine .inl ⟨node label children :: trees, later, List.forall_mem_cons.mpr ⟨⟨whole, ranked⟩, goods⟩, ?_, ?_⟩
            · rw [List.length_cons, lengths]
            · rw [words_cons, word_node, List.cons_append, List.cons_append, List.append_assoc]
          · refine .inr ⟨node label children :: trees, breaks.cons whole,
              List.forall_mem_cons.mpr ⟨ranked, rankeds⟩, ?_, ?_⟩
            · rw [List.length_cons, lengths]
            · rw [words_cons, word_node, List.cons_append]
        · refine .inr ⟨node label children :: List.replicate count stub,
            ⟨[], _, count, rfl, (fun _ member => nomatch member), breaks.open⟩,
            List.forall_mem_cons.mpr ⟨.node length ranked, fun tree member => ?_⟩, ?_, ?_⟩
          · obtain rfl := List.eq_of_mem_replicate member
            exact .stub
          · rw [List.length_cons, List.length_replicate]
          · rw [words_cons, word_node, words_replicate_stub, List.append_nil]

/-- **Every word** is spelt by a tree that breaks off, or begins with the word of a whole one. -/
theorem exists_tree (ar : α → Nat) (text : List α) :
    (∃ tree rest, Whole tree ∧ Ranked ar tree ∧ text = word tree ++ rest) ∨
    (∃ tree, Open tree ∧ Ranked ar tree ∧ text = word tree) := by
  rcases exists_words ar text.length 1 text le_rfl with ⟨trees, rest, good, length, rfl⟩ | ⟨trees, breaks, ranked, length, rfl⟩
  · obtain ⟨tree, rfl⟩ := List.length_eq_one_iff.mp length
    refine .inl ⟨tree, rest, (good tree List.mem_cons_self).1, (good tree List.mem_cons_self).2, ?_⟩
    rw [words_cons, words_nil, List.append_nil]
  · obtain ⟨tree, rfl⟩ := List.length_eq_one_iff.mp length
    refine .inr ⟨tree, ?_, ranked tree List.mem_cons_self, by rw [words_cons, words_nil, List.append_nil]⟩
    rcases breaks.cases with ⟨-, done, last, missing, same, -⟩ | ⟨breaks, -⟩
    · cases done <;> cases same
    · exact breaks

/-- The word of a tree that breaks off is not complete. -/
theorem Open.not_closes {tree : PartialTree α} (breaks : Open tree) (ranked : Ranked ar tree) :
    ∀ opened, ¬ Closes ar (opened + 1) (word tree) := by
  induction breaks with
  | stub => exact fun opened closes => not_closes_nil closes
  | @node label done last missing wholes _ ih =>
    intro opened closes
    have length := ranked.length
    have rankeds := ranked.children
    rw [List.length_append, List.length_cons, List.length_replicate] at length
    have front : Closes ar done.length (words done) :=
      closes_words wholes fun child member => rankeds child (List.mem_append_left _ member)
    rw [word_node, closes_cons, words_append, words_cons, words_replicate_stub, List.append_nil, ← length,
      show opened + (done.length + (missing + 1)) = done.length + (opened + missing + 1) by omega] at closes
    obtain ⟨first, second, same, closesFirst, closesSecond⟩ := closes.split
    obtain ⟨-, rfl⟩ := front.cancel closesFirst same
    exact ih (rankeds last (List.mem_append_right _ List.mem_cons_self)) _ closesSecond

/-- **Every complete word is spelt by a whole ranked tree.** -/
theorem exists_whole {text : List α} (closes : Closes ar 1 text) :
    ∃ tree, Whole tree ∧ Ranked ar tree ∧ word tree = text := by
  rcases exists_tree ar text with ⟨tree, rest, whole, ranked, rfl⟩ | ⟨tree, breaks, ranked, rfl⟩
  · have front := closes_word whole ranked
    have same : word tree ++ rest = word tree ++ rest ++ [] := by rw [List.append_nil]
    exact ⟨tree, whole, ranked, (front.cancel closes (by rw [← same])).1⟩
  · exact absurd closes (breaks.not_closes ranked 0)

/-- Trees one after the other are those of their word, if each of them is. -/
theorem words_inj {trees : List (PartialTree α)}
    (each : ∀ tree ∈ trees, ∀ other, Whole other → Ranked ar other → word tree = word other → tree = other)
    (whole : ∀ tree ∈ trees, Whole tree) (ranked : ∀ tree ∈ trees, Ranked ar tree) :
    ∀ {others : List (PartialTree α)}, (∀ other ∈ others, Whole other) → (∀ other ∈ others, Ranked ar other) →
      trees.length = others.length → words trees = words others → trees = others := by
  induction trees with
  | nil =>
    intro others _ _ lengths _
    exact (List.length_eq_zero_iff.mp lengths.symm).symm
  | cons tree rest ih =>
    intro others wholes rankeds lengths same
    obtain ⟨other, others, rfl⟩ := List.exists_cons_of_length_pos (by rw [← lengths]; exact Nat.succ_pos _ :
      0 < others.length)
    rw [List.forall_mem_cons] at each whole ranked wholes rankeds
    rw [words_cons, words_cons] at same
    obtain ⟨front, back⟩ := (closes_word whole.1 ranked.1).cancel (closes_word wholes.1 rankeds.1) same
    rw [each.1 other wholes.1 rankeds.1 front,
      ih each.2 whole.2 ranked.2 wholes.2 rankeds.2 (Nat.succ.inj lengths) back]

/-- **A complete word is spelt by one whole ranked tree only.** -/
theorem word_inj {tree : PartialTree α} (whole : Whole tree) (ranked : Ranked ar tree) :
    ∀ {other : PartialTree α}, Whole other → Ranked ar other → word tree = word other → tree = other := by
  induction tree with
  | stub => exact absurd whole not_whole_stub
  | node label children ih =>
    intro other wholes rankeds same
    cases other with
    | stub => exact absurd wholes not_whole_stub
    | node label' children' =>
      rw [word_node, word_node] at same
      obtain ⟨rfl, below⟩ := List.cons.inj same
      have lengths : children.length = children'.length := ranked.length.trans rankeds.length.symm
      have each : ∀ child ∈ children, ∀ other, Whole other → Ranked ar other → word child = word other →
          child = other := fun child member other wholes rankeds =>
        ih child member (whole.children child member) (ranked.children child member) wholes rankeds
      rw [words_inj each whole.children ranked.children wholes.children rankeds.children lengths below]

end Words

/-! ### Subtrees -/

/-- A tree that stands somewhere in another. -/
inductive Subtree : PartialTree α → PartialTree α → Prop
  | refl (tree : PartialTree α) : Subtree tree tree
  | child {sub child : PartialTree α} {label : α} {children : List (PartialTree α)} : child ∈ children →
      Subtree sub child → Subtree sub (node label children)

theorem Subtree.word_subset {sub tree : PartialTree α} (inside : Subtree sub tree) : word sub ⊆ word tree := by
  induction inside with
  | refl => exact List.Subset.refl _
  | child member _ ih =>
    intro label among
    rw [word_node]
    exact List.mem_cons_of_mem _ (mem_words.mpr ⟨_, member, ih among⟩)

/-- A subtree of a node is the node, or stands in a child node. -/
theorem subtree_node_iff {sub : PartialTree α} {label : α} {children : List (PartialTree α)} :
    Subtree sub (node label children) ↔ sub = node label children ∨ ∃ child ∈ children, Subtree sub child := by
  constructor
  · intro inside
    cases inside with
    | refl => exact .inl rfl
    | child member inside => exact .inr ⟨_, member, inside⟩
  · rintro (rfl | ⟨child, member, inside⟩)
    · exact .refl _
    · exact .child member inside

/-! ### Other labels -/

section Map

variable (f : α → β)

mutual

/-- The tree with other labels. -/
def map : PartialTree α → PartialTree β
  | stub => stub
  | node label children => node (f label) (mapAll children)

/-- Trees with other labels. -/
def mapAll : List (PartialTree α) → List (PartialTree β)
  | [] => []
  | tree :: rest => map tree :: mapAll rest

end

@[simp] theorem map_stub : map f stub = stub := by rw [map]

theorem mapAll_eq (trees : List (PartialTree α)) : mapAll f trees = trees.map (map f) := by
  induction trees with
  | nil => rw [mapAll]; rfl
  | cons tree rest ih => rw [mapAll, ih, List.map_cons]

@[simp] theorem map_node (label : α) (children : List (PartialTree α)) :
    map f (node label children) = node (f label) (children.map (map f)) := by rw [map, mapAll_eq]

theorem words_map_of {trees : List (PartialTree α)} (each : ∀ tree ∈ trees, word (map f tree) = (word tree).map f) :
    words (trees.map (map f)) = (words trees).map f := by
  induction trees with
  | nil => rw [List.map_nil, words_nil, words_nil, List.map_nil]
  | cons tree rest ih =>
    rw [List.forall_mem_cons] at each
    rw [List.map_cons, words_cons, words_cons, each.1, ih each.2, List.map_append]

theorem word_map (tree : PartialTree α) : word (map f tree) = (word tree).map f := by
  induction tree with
  | stub => rw [map_stub, word_stub, word_stub, List.map_nil]
  | node label children ih => rw [map_node, word_node, word_node, List.map_cons, words_map_of f ih]

variable {f}

theorem Whole.map {tree : PartialTree α} (whole : Whole tree) : Whole (map f tree) := by
  induction whole with
  | node _ ih =>
    rw [map_node]
    exact .node (List.forall_mem_map.mpr ih)

theorem Ranked.map {ar : β → Nat} {tree : PartialTree α} (ranked : Ranked (ar ∘ f) tree) : Ranked ar (map f tree) := by
  induction ranked with
  | stub => rw [map_stub]; exact .stub
  | node length _ ih =>
    rw [map_node]
    exact .node (by rw [List.length_map, length]; rfl) (List.forall_mem_map.mpr ih)

end Map

/-- The labels of a whole ranked tree can be replaced one by one when the arities stay. -/
theorem exists_zip {ar : α → Nat} {tree : PartialTree α} (whole : Whole tree) (ranked : Ranked ar tree) {text : List β}
    (length : (word tree).length = text.length) :
    ∃ zipped : PartialTree (α × β), Whole zipped ∧ Ranked (ar ∘ Prod.fst) zipped ∧
      word zipped = (word tree).zip text ∧ map Prod.fst zipped = tree := by
  have firsts : ((word tree).zip text).map Prod.fst = word tree := List.map_fst_zip (le_of_eq length)
  have closes : Closes (ar ∘ Prod.fst) 1 ((word tree).zip text) := by
    apply (closes_map Prod.fst).mp
    rw [firsts]
    exact closes_word whole ranked
  obtain ⟨zipped, wholes, rankeds, spelt⟩ := exists_whole closes
  refine ⟨zipped, wholes, rankeds, spelt, ?_⟩
  exact word_inj wholes.map rankeds.map whole ranked (by rw [word_map, spelt, firsts])

end PartialTree
