/-
**The heads of applications in a schema.**

The first child of an `apply` is to be kept whole. The flag for it lies on the stack of ancestors and describes one
child node, not the subterm below it: of a head that is kept, the child nodes are cut as all others are.

* `Intact` — a subterm of which nothing is cut, and `intact_iff`, `cut_eq`: it is what `cut` leaves alone.
* `HeadsFit` — every head that is kept is intact; `heads_kept_iff` says that this is what keeping heads comes to.
* `headsWhole_iff` — **for every complete formula**, heads are kept whole and printed without variables exactly when
  they fit; the one of `deepHead` does not.
-/

import MathWebSearch.Query.Schemata
import MathWebSearch.Query.SchemaDecode

namespace MathWebSearch

open PartialTree PrefixCode

namespace SchemaEngine

section Intact

variable {α : Type} {apply : α → Bool} {depth : Nat}

/-! ### What is left alone -/

/-- A tree on a level of which nothing is cut: every node has child nodes above the depth only, unless it is an `apply`
with a single one. -/
inductive Intact (apply : α → Bool) (depth : Nat) : Nat → PartialTree α → Prop
  | node {level : Nat} {label : α} {children : List (PartialTree α)} :
      (children ≠ [] → level + 1 < depth ∨ (apply label = true ∧ children.length = 1)) →
      (∀ child ∈ children, Intact apply depth (level + 1) child) → Intact apply depth level (.node label children)

theorem Intact.keeps {level : Nat} {label : α} {children : List (PartialTree α)}
    (intact : Intact apply depth level (.node label children)) (some : children ≠ []) :
    level + 1 < depth ∨ (apply label = true ∧ children.length = 1) := by
  cases intact with
  | node keeps _ => exact keeps some

theorem Intact.children {level : Nat} {label : α} {children : List (PartialTree α)}
    (intact : Intact apply depth level (.node label children)) :
    ∀ child ∈ children, Intact apply depth (level + 1) child := by
  cases intact with
  | node _ all => exact all

/-- Child nodes are left alone when they are kept and left alone one by one. -/
theorem cutChildren_eq {level : Nat} {first : Bool} {children : List (PartialTree α)}
    (keeps : children ≠ [] → level < depth ∨ (first = true ∧ children.length = 1))
    (each : ∀ child ∈ children, cut apply depth level child = child) :
    cutChildren apply depth level first children = children := by
  induction children generalizing first with
  | nil => exact cutChildren_nil _ _ _ _
  | cons child rest ih =>
    have here := keeps (List.cons_ne_nil _ _)
    rw [List.forall_mem_cons] at each
    rw [cutChildren_cons, each.1, if_pos (here.imp id And.left), ih (fun some => ?_) each.2]
    rcases here with above | ⟨-, single⟩
    · exact .inl above
    · exact absurd (List.length_eq_zero_iff.mp (Nat.succ.inj single)) some

theorem Intact.cut_eq {level : Nat} {tree : PartialTree α} (intact : Intact apply depth level tree) :
    cut apply depth level tree = tree := by
  induction intact with
  | node keeps _ ih => rw [cut_node, cutChildren_eq keeps ih]

/-- Cutting leaves no more tokens than there are. -/
theorem length_words_cutChildren {level : Nat} {first : Bool} {children : List (PartialTree α)}
    (each : ∀ child ∈ children, (word (cut apply depth level child)).length ≤ (word child).length) :
    (words (cutChildren apply depth level first children)).length ≤ (words children).length := by
  induction children generalizing first with
  | nil => rw [cutChildren_nil]
  | cons child rest ih =>
    rw [List.forall_mem_cons] at each
    have behind := @ih false each.2
    rw [cutChildren_cons, words_cons, words_cons, List.length_append, List.length_append]
    split_ifs
    · exact Nat.add_le_add each.1 behind
    · rw [word_stub]
      exact Nat.add_le_add (Nat.zero_le _) behind

theorem length_word_cut (tree : PartialTree α) :
    ∀ level, (word (cut apply depth level tree)).length ≤ (word tree).length := by
  induction tree with
  | stub => intro level; rw [cut_stub]
  | node label children ih =>
    intro level
    rw [cut_node, word_node, word_node, List.length_cons, List.length_cons]
    exact Nat.succ_le_succ (length_words_cutChildren fun child member => ih child member _)

/-- Child nodes of which no token is lost. -/
theorem keeps_of_length {level : Nat} {first : Bool} {children : List (PartialTree α)}
    (whole : ∀ child ∈ children, Whole child)
    (same : (words (cutChildren apply depth level first children)).length = (words children).length) :
    (children ≠ [] → level < depth ∨ (first = true ∧ children.length = 1)) ∧
      ∀ child ∈ children, (word (cut apply depth level child)).length = (word child).length := by
  induction children generalizing first with
  | nil => exact ⟨fun some => absurd rfl some, fun _ member => nomatch member⟩
  | cons child rest ih =>
    rw [List.forall_mem_cons] at whole
    have positive := List.length_pos_iff.mpr whole.1.word_ne_nil
    have behind := @length_words_cutChildren _ apply depth level false rest fun child _ => length_word_cut child level
    have front := @length_word_cut _ apply depth child level
    rw [cutChildren_cons, words_cons, words_cons, List.length_append, List.length_append] at same
    by_cases kept : level < depth ∨ first = true
    · rw [if_pos kept] at same
      have splits : (word (cut apply depth level child)).length = (word child).length ∧
          (words (cutChildren apply depth level false rest)).length = (words rest).length := by omega
      obtain ⟨keeps, each⟩ := ih whole.2 splits.2
      refine ⟨fun _ => ?_, List.forall_mem_cons.mpr ⟨splits.1, each⟩⟩
      by_cases single : rest = []
      · exact kept.imp_right fun isFirst => ⟨isFirst, by rw [single]; rfl⟩
      · exact .inl ((keeps single).resolve_right fun both => Bool.noConfusion both.1)
    · rw [if_neg kept, word_stub, List.length_nil] at same
      omega

theorem intact_node_iff {level : Nat} {label : α} {children : List (PartialTree α)} :
    Intact apply depth level (.node label children) ↔
      (children ≠ [] → level + 1 < depth ∨ (apply label = true ∧ children.length = 1)) ∧
        ∀ child ∈ children, Intact apply depth (level + 1) child :=
  ⟨fun intact => ⟨intact.keeps, intact.children⟩, fun both => .node both.1 both.2⟩

theorem not_intact_stub {level : Nat} : ¬ Intact apply depth level .stub := by
  intro intact
  cases intact

/-- Only the labels of applications matter. -/
theorem intact_map {β : Type} {f : β → α} (tree : PartialTree β) : ∀ {level : Nat},
    Intact apply depth level (map f tree) ↔ Intact (apply ∘ f) depth level tree := by
  induction tree with
  | stub =>
    intro level
    rw [map_stub]
    exact ⟨fun intact => absurd intact not_intact_stub, fun intact => absurd intact not_intact_stub⟩
  | node label children ih =>
    intro level
    rw [map_node, intact_node_iff, intact_node_iff, List.length_map, List.forall_mem_map, Ne, List.map_eq_nil_iff]
    exact and_congr_right fun _ => forall₂_congr fun child member => ih child member

/-- **What is left alone is what loses no token.** -/
theorem intact_of_length {tree : PartialTree α} (whole : Whole tree) : ∀ {level : Nat},
    (word (cut apply depth level tree)).length = (word tree).length → Intact apply depth level tree := by
  induction whole with
  | node whole ih =>
    intro level same
    rw [cut_node, word_node, word_node, List.length_cons, List.length_cons, Nat.succ_inj] at same
    obtain ⟨keeps, each⟩ := keeps_of_length whole same
    exact .node keeps fun child member => ih child member (each child member)

/-- Where no label occurs twice, it is enough that no label is lost. -/
theorem intact_of_subset {tree : PartialTree α} (whole : Whole tree) (nodup : (word tree).Nodup) {level : Nat}
    (all : word tree ⊆ word (cut apply depth level tree)) : Intact apply depth level tree := by
  have least := (List.subperm_of_subset nodup all).length_le
  exact intact_of_length whole (le_antisymm (length_word_cut tree level) least)

end Intact

section Heads

variable {α : Type} {apply : α → Bool} {depth : Nat}

/-! ### Heads that are kept -/

/-- Every head that is kept is intact. -/
inductive HeadsFit (apply : α → Bool) (depth : Nat) : Nat → PartialTree α → Prop
  | node {level : Nat} {label : α} {children : List (PartialTree α)} :
      (apply label = true → ∀ head ∈ children.head?, Intact apply depth (level + 1) head) →
      (level + 1 < depth → ∀ child ∈ children, HeadsFit apply depth (level + 1) child) →
      HeadsFit apply depth level (.node label children)

theorem HeadsFit.head {level : Nat} {label : α} {children : List (PartialTree α)}
    (fit : HeadsFit apply depth level (.node label children)) (isApply : apply label = true) :
    ∀ head ∈ children.head?, Intact apply depth (level + 1) head := by
  cases fit with
  | node heads _ => exact heads isApply

theorem HeadsFit.children {level : Nat} {label : α} {children : List (PartialTree α)}
    (fit : HeadsFit apply depth level (.node label children)) (above : level + 1 < depth) :
    ∀ child ∈ children, HeadsFit apply depth (level + 1) child := by
  cases fit with
  | node _ all => exact all above

theorem Intact.headsFit {level : Nat} {tree : PartialTree α} (intact : Intact apply depth level tree) :
    HeadsFit apply depth level tree := by
  induction intact with
  | node _ all ih => exact .node (fun _ head first => all head (List.mem_of_mem_head? first)) fun _ => ih

theorem headsFit_node_iff {level : Nat} {label : α} {children : List (PartialTree α)} :
    HeadsFit apply depth level (.node label children) ↔
      (apply label = true → ∀ head ∈ children.head?, Intact apply depth (level + 1) head) ∧
        (level + 1 < depth → ∀ child ∈ children, HeadsFit apply depth (level + 1) child) :=
  ⟨fun fit => ⟨fit.head, fit.children⟩, fun both => .node both.1 both.2⟩

theorem headsFit_map {β : Type} {f : β → α} (tree : PartialTree β) : ∀ {level : Nat},
    HeadsFit apply depth level (map f tree) ↔ HeadsFit (apply ∘ f) depth level tree := by
  induction tree with
  | stub =>
    intro level
    rw [map_stub]
    constructor <;> intro fit <;> cases fit
  | node label children ih =>
    intro level
    rw [map_node, headsFit_node_iff, headsFit_node_iff, List.forall_mem_map, List.head?_map, Option.forall_mem_map]
    refine and_congr (imp_congr_right fun _ => forall₂_congr fun head _ => intact_map head) ?_
    exact imp_congr_right fun _ => forall₂_congr fun child member => ih child member

/-- A child node that is kept fits. -/
theorem HeadsFit.kept {level : Nat} {label : α} {children : List (PartialTree α)}
    (fit : HeadsFit apply depth level (.node label children)) {child : PartialTree α} (member : child ∈ children)
    (keep : level + 1 < depth ∨ (apply label = true ∧ child ∈ children.head?)) :
    HeadsFit apply depth (level + 1) child := by
  rcases keep with above | ⟨isApply, first⟩
  · exact fit.children above child member
  · exact (fit.head isApply child first).headsFit

/-- The kept labels are among those of the tree. -/
theorem words_cutChildren_subset {level : Nat} {first : Bool} {children : List (PartialTree α)}
    (each : ∀ child ∈ children, word (cut apply depth level child) ⊆ word child) :
    words (cutChildren apply depth level first children) ⊆ words children := by
  induction children generalizing first with
  | nil => rw [cutChildren_nil]; exact List.Subset.refl _
  | cons child rest ih =>
    rw [List.forall_mem_cons] at each
    rw [cutChildren_cons, words_cons, words_cons]
    refine List.append_subset.mpr ⟨?_, List.Subset.trans (ih each.2) (List.subset_append_right _ _)⟩
    split_ifs
    · exact List.Subset.trans each.1 (List.subset_append_left _ _)
    · rw [word_stub]
      exact List.nil_subset _

theorem word_cut_subset (tree : PartialTree α) : ∀ level, word (cut apply depth level tree) ⊆ word tree := by
  induction tree with
  | stub => intro level; rw [cut_stub]; exact List.Subset.refl _
  | node label children ih =>
    intro level
    rw [cut_node, word_node, word_node]
    exact List.cons_subset_cons _ (words_cutChildren_subset fun child member => ih child member _)

/-- **Which labels of a child node are kept**, where no label occurs twice: those of the child node that is cut by
itself, if it is kept. -/
theorem mem_words_cutChildren {level : Nat} {first : Bool} {children : List (PartialTree α)}
    (nodup : (words children).Nodup) {child : PartialTree α} (member : child ∈ children) {label : α}
    (inside : label ∈ word child) :
    label ∈ words (cutChildren apply depth level first children) ↔
      (level < depth ∨ (first = true ∧ child ∈ children.head?)) ∧ label ∈ word (cut apply depth level child) := by
  induction children generalizing first with
  | nil => cases member
  | cons other rest ih =>
    rw [words_cons, List.nodup_append'] at nodup
    obtain ⟨-, nodupRest, disjoint⟩ := nodup
    rw [cutChildren_cons, words_cons, List.mem_append, List.head?_cons, Option.mem_some_iff]
    have front : ∀ {some : PartialTree α}, label ∈ word (if level < depth ∨ first = true then cut apply depth level some
        else .stub) ↔ (level < depth ∨ first = true) ∧ label ∈ word (cut apply depth level some) := by
      intro some
      split_ifs with keep
      · exact ⟨fun among => ⟨keep, among⟩, And.right⟩
      · rw [word_stub]
        exact ⟨fun none => absurd none List.not_mem_nil, fun both => absurd both.1 keep⟩
    rcases List.mem_cons.mp member with rfl | member
    · have notBehind : label ∉ words (cutChildren apply depth level false rest) := fun behind =>
        disjoint inside (words_cutChildren_subset (fun child _ => word_cut_subset child level) behind)
      rw [front, or_iff_left notBehind, and_iff_left rfl]
    · have behind : label ∈ words rest := mem_words.mpr ⟨child, member, inside⟩
      have notFront : ¬ ((level < depth ∨ first = true) ∧ label ∈ word (cut apply depth level other)) := fun both =>
        disjoint (word_cut_subset other level both.2) behind
      have notFirst : ¬ other = child := fun same => disjoint (same ▸ inside) behind
      rw [front, or_iff_right notFront, ih nodupRest member]
      refine and_congr_left fun _ => or_congr_right ?_
      exact ⟨fun both => Bool.noConfusion both.1, fun both => absurd both.2 notFirst⟩

/-- The heads of a tree are kept whole: with an `apply`, all labels of its first child are kept. -/
def KeepsHeads (apply : α → Bool) (kept : List α) (tree : PartialTree α) : Prop :=
  ∀ label head rest, Subtree (.node label (head :: rest)) tree → apply label = true → label ∈ kept →
    ∀ inner ∈ word head, inner ∈ kept

/-- **Heads are kept whole exactly when they fit**, where no label occurs twice. -/
theorem heads_kept_iff {tree : PartialTree α} (whole : Whole tree) (nodup : (word tree).Nodup) : ∀ {level : Nat},
    KeepsHeads apply (word (cut apply depth level tree)) tree ↔ HeadsFit apply depth level tree := by
  induction whole with
  | @node label children whole ih =>
    intro level
    rw [word_node, List.nodup_cons] at nodup
    obtain ⟨fresh, nodup⟩ := nodup
    -- a label below the root is kept with the child node it stands in
    have below : ∀ child ∈ children, ∀ inner ∈ word child,
        inner ∈ word (cut apply depth level (.node label children)) ↔
          (level + 1 < depth ∨ (apply label = true ∧ child ∈ children.head?)) ∧
            inner ∈ word (cut apply depth (level + 1) child) := by
      intro child member inner inside
      have other : inner ≠ label := fun same => fresh (mem_words.mpr ⟨child, member, same ▸ inside⟩)
      rw [cut_node, word_node, List.mem_cons, or_iff_right other]
      exact mem_words_cutChildren nodup member inside
    have nodupChild : ∀ child ∈ children, (word child).Nodup := by
      intro child member
      obtain ⟨front, back, rfl⟩ := List.append_of_mem member
      rw [words_append, words_cons] at nodup
      exact nodup.of_append_right.of_append_left
    constructor
    · intro keeps
      refine .node (fun isApply head first => ?_) fun above child member => ?_
      · obtain ⟨rest, rfl⟩ := List.head?_eq_some_iff.mp first
        have member : head ∈ head :: rest := List.mem_cons_self
        refine intact_of_subset (whole head member) (nodupChild head member) fun inner inside => ?_
        have root : label ∈ word (cut apply depth level (.node label (head :: rest))) := by
          rw [cut_node, word_node]
          exact List.mem_cons_self
        exact ((below head member inner inside).mp (keeps label head rest (.refl _) isApply root inner inside)).2
      · refine (ih child member (nodupChild child member)).mp fun inner head rest stands isApply kept other inside => ?_
        have innerInside : inner ∈ word child := stands.word_subset (by rw [word_node]; exact List.mem_cons_self)
        have otherInside : other ∈ word child := stands.word_subset (by
          rw [word_node, words_cons]
          exact List.mem_cons_of_mem _ (List.mem_append_left _ inside))
        have innerKept := (below child member inner innerInside).mpr ⟨.inl above, kept⟩
        have otherKept := keeps inner head rest (.child member stands) isApply innerKept other inside
        exact ((below child member other otherInside).mp otherKept).2
    · intro fit inner head rest stands isApply kept other inside
      rcases subtree_node_iff.mp stands with same | ⟨child, member, stands⟩
      · obtain ⟨rfl, rfl⟩ := PartialTree.node.inj same
        have first : head ∈ (head :: rest).head? := rfl
        refine (below head List.mem_cons_self other inside).mpr ⟨.inr ⟨isApply, first⟩, ?_⟩
        rw [(fit.head isApply head first).cut_eq]
        exact inside
      · have innerInside : inner ∈ word child := stands.word_subset (by rw [word_node]; exact List.mem_cons_self)
        have otherInside : other ∈ word child := stands.word_subset (by
          rw [word_node, words_cons]
          exact List.mem_cons_of_mem _ (List.mem_append_left _ inside))
        obtain ⟨keep, innerKept⟩ := (below child member inner innerInside).mp kept
        refine (below child member other otherInside).mpr ⟨keep, ?_⟩
        exact (ih child member (nodupChild child member)).mpr (fit.kept member keep) inner head rest stands isApply
          innerKept other inside

/-! ### Heads that are printed -/

/-- A schema without variables. -/
inductive SchemaTree.NoQvar {β : Type} : SchemaTree β → Prop
  | token {content : β} {children : List (SchemaTree β)} : (∀ child ∈ children, NoQvar child) →
      NoQvar (.token content children)

/-- A schema that stands somewhere in another. -/
inductive SchemaTree.Subtree {β : Type} : SchemaTree β → SchemaTree β → Prop
  | refl (tree : SchemaTree β) : Subtree tree tree
  | child {sub child : SchemaTree β} {content : β} {children : List (SchemaTree β)} : child ∈ children →
      Subtree sub child → Subtree sub (.token content children)

theorem SchemaTree.subtree_token_iff {β : Type} {sub : SchemaTree β} {content : β} {children : List (SchemaTree β)} :
    SchemaTree.Subtree sub (.token content children) ↔
      sub = .token content children ∨ ∃ child ∈ children, SchemaTree.Subtree sub child := by
  constructor
  · intro inside
    cases inside with
    | refl => exact .inl rfl
    | child member inside => exact .inr ⟨_, member, inside⟩
  · rintro (rfl | ⟨child, member, inside⟩)
    · exact .refl _
    · exact .child member inside

theorem mem_numberedAll {β : Type} {shown : α → β} {trees : List (PartialTree α)} {child : SchemaTree β} :
    ∀ {qvarCount : Nat}, child ∈ (numberedAll shown trees qvarCount).1 →
      ∃ tree ∈ trees, ∃ number, child = (numbered shown tree number).1 := by
  induction trees with
  | nil =>
    intro qvarCount member
    rw [numberedAll_nil] at member
    cases member
  | cons tree rest ih =>
    intro qvarCount member
    rw [numberedAll_cons] at member
    rcases List.mem_cons.mp member with rfl | member
    · exact ⟨tree, List.mem_cons_self, qvarCount, rfl⟩
    · obtain ⟨other, among, number, same⟩ := ih member
      exact ⟨other, List.mem_cons_of_mem _ among, number, same⟩

/-- Only stubs are printed as variables. -/
theorem noQvar_numbered {β : Type} {shown : α → β} {tree : PartialTree α} (whole : Whole tree) :
    ∀ qvarCount, (numbered shown tree qvarCount).1.NoQvar := by
  induction whole with
  | node _ ih =>
    intro qvarCount
    rw [numbered_node]
    refine .token fun child member => ?_
    obtain ⟨tree, among, number, rfl⟩ := mem_numberedAll member
    exact ih tree among number

theorem mem_cutChildren {level : Nat} {first : Bool} {children : List (PartialTree α)} {cutChild : PartialTree α}
    (member : cutChild ∈ cutChildren apply depth level first children) :
    cutChild = .stub ∨ ∃ child ∈ children, (level < depth ∨ (first = true ∧ child ∈ children.head?)) ∧
      cutChild = cut apply depth level child := by
  induction children generalizing first with
  | nil => rw [cutChildren_nil] at member; cases member
  | cons child rest ih =>
    rw [cutChildren_cons] at member
    rcases List.mem_cons.mp member with rfl | member
    · split_ifs with keep
      · exact .inr ⟨child, List.mem_cons_self, keep.imp_right fun isFirst => ⟨isFirst, rfl⟩, rfl⟩
      · exact .inl rfl
    · rcases ih member with stub | ⟨other, among, keep, same⟩
      · exact .inl stub
      · exact .inr ⟨other, List.mem_cons_of_mem _ among, .inl (keep.resolve_right fun both => Bool.noConfusion both.1),
          same⟩

/-- In a schema, the heads have no variables. -/
def PrintsHeads (apply : α → Bool) (schema : SchemaTree α) : Prop :=
  ∀ label head rest, SchemaTree.Subtree (.token label (head :: rest)) schema → apply label = true → head.NoQvar

/-- **Heads that fit are printed without variables.** -/
theorem printsHeads_numbered {tree : PartialTree α} (whole : Whole tree) : ∀ {level : Nat},
    HeadsFit apply depth level tree → ∀ qvarCount, PrintsHeads apply (numbered id (cut apply depth level tree) qvarCount).1 := by
  induction whole with
  | @node label children whole ih =>
    intro level fit qvarCount inner head rest stands isApply
    rw [cut_node, numbered_node] at stands
    rcases SchemaTree.subtree_token_iff.mp stands with same | ⟨child, member, stands⟩
    · -- the head of the root is intact
      obtain ⟨rfl, printed⟩ := SchemaTree.token.inj same
      cases children with
      | nil =>
        rw [cutChildren_nil, numberedAll_nil] at printed
        cases printed
      | cons child children =>
        have intact := fit.head isApply child rfl
        have isFirst : apply inner = true := isApply
        rw [cutChildren_cons, if_pos (.inr isFirst), intact.cut_eq, numberedAll_cons] at printed
        obtain ⟨rfl, -⟩ := List.cons.inj printed
        exact noQvar_numbered (whole child List.mem_cons_self) qvarCount
    · obtain ⟨cutChild, among, number, rfl⟩ := mem_numberedAll member
      rcases mem_cutChildren among with rfl | ⟨child, inside, keep, rfl⟩
      · rw [numbered_stub] at stands
        cases stands
      · exact ih child inside (fit.kept inside keep) number inner head rest stands isApply

end Heads

section Formulae

variable {self : SchemaEngine}

/-! ### Encoded formulae -/

/-- The meaning of a token; there is none for an id that the decoder does not know. -/
def meaningOf (self : SchemaEngine) (tok : EncodedToken) : Str := (self.decoder.getMeaning tok.id).getD []

/-- The decoder knows every token. -/
def Knows (self : SchemaEngine) (expr : EncodedFormula) : Prop :=
  ∀ tok ∈ expr, (self.decoder.getMeaning tok.id).isSome = true

theorem getMeaning_eq {tok : EncodedToken} (known : (self.decoder.getMeaning tok.id).isSome = true) :
    self.getMeaning tok = .ok (self.meaningOf tok) := by
  obtain ⟨meaning, found⟩ := Option.isSome_iff_exists.mp known
  rw [getMeaning, meaningOf, found]
  rfl

theorem Knows.known {expr : EncodedFormula} (knows : self.Knows expr) :
    Known self.isApply (meansApply ∘ self.meaningOf) expr := by
  intro tok member
  rw [isApply, getMeaning_eq (knows tok member)]
  rfl

theorem Knows.printed {expr : EncodedFormula} (knows : self.Knows expr) :
    Printed self.print (contentOf ∘ self.meaningOf) expr := by
  intro tok member
  rw [print, getMeaning_eq (knows tok member)]
  rfl

/-- The heads of a formula are kept whole and printed without variables. Its tokens are kept with their positions, and
the nodes of its tree are tokens at positions; the schema is the one that is returned, with the tokens still in it. -/
def HeadsWhole (self : SchemaEngine) (expr : EncodedFormula) (maxDepth : Nat) : Prop :=
  ∃ kept schema,
    reduceFormula (fun tok => tok.1.arity) (fun tok => self.isApply tok.1) expr.zipIdx maxDepth = .ok kept ∧
    self.reduceEncoded expr maxDepth = .ok (kept.map Prod.fst) ∧
    (∀ tree, Whole tree → Ranked (fun tok => tok.1.arity) tree → word tree = expr.zipIdx →
      KeepsHeads (fun tok => meansApply (self.meaningOf tok.1)) kept tree) ∧
    decodeFormula EncodedToken.arity self.isApply Except.ok (kept.map Prod.fst) maxDepth = .ok schema ∧
    self.decodeEncoded (kept.map Prod.fst) maxDepth = .ok (schema.map (contentOf ∘ self.meaningOf)) ∧
    PrintsHeads (meansApply ∘ self.meaningOf) schema

/-- The heads of the tree of a formula fit. -/
theorem headsWhole_word_iff {tree : PartialTree EncodedToken} (whole : Whole tree)
    (ranked : Ranked EncodedToken.arity tree) (knows : self.Knows (word tree)) {maxDepth : Nat}
    (positive : maxDepth ≠ 0) :
    self.HeadsWhole (word tree) maxDepth ↔ HeadsFit (meansApply ∘ self.meaningOf) maxDepth 0 tree := by
  -- the tree with the positions of its tokens
  have sameLength : (word tree).length = (List.range (word tree).length).length := List.length_range.symm
  obtain ⟨zipped, wholes, rankeds, spelt, firsts⟩ := exists_zip whole ranked sameLength
  have positions : word zipped = (word tree).zipIdx := by
    rw [spelt, List.zipIdx_eq_zip_range', List.range_eq_range']
  have nodup : (word zipped).Nodup := by
    have snds : ((word zipped).map Prod.snd).Nodup := by
      rw [spelt, List.map_snd_zip (le_of_eq List.length_range)]
      exact List.nodup_range
    exact snds.of_map
  have knownZipped : Known (fun tok => self.isApply tok.1) (fun tok => meansApply (self.meaningOf tok.1))
      (word zipped) := by
    intro tok member
    rw [spelt] at member
    exact knows.known tok.1 (List.of_mem_zip member).1
  have reducedZipped := reduceFormula_word wholes rankeds knownZipped positive
  have reduced := reduceFormula_word whole ranked knows.known positive
  have kept : (word (cut (fun tok => meansApply (self.meaningOf tok.1)) maxDepth 0 zipped)).map Prod.fst =
      word (cut (meansApply ∘ self.meaningOf) maxDepth 0 tree) := by
    rw [← word_map, ← firsts, cut_map]
    rfl
  have asItIs : Printed Except.ok id (word tree) := fun _ _ => rfl
  have decoded : decodeFormula EncodedToken.arity self.isApply Except.ok
      (word (cut (meansApply ∘ self.meaningOf) maxDepth 0 tree)) maxDepth =
        .ok (numbered id (cut (meansApply ∘ self.meaningOf) maxDepth 0 tree) 1).1 :=
    decodeFormula_word whole ranked knows.known asItIs
  have printed : decodeFormula EncodedToken.arity self.isApply self.print
      (word (cut (meansApply ∘ self.meaningOf) maxDepth 0 tree)) maxDepth =
        .ok (numbered (contentOf ∘ self.meaningOf) (cut (meansApply ∘ self.meaningOf) maxDepth 0 tree) 1).1 :=
    decodeFormula_word whole ranked knows.known knows.printed
  rw [← Function.comp_id (contentOf ∘ self.meaningOf), numbered_map] at printed
  have fits : HeadsFit (fun tok => meansApply (self.meaningOf tok.1)) maxDepth 0 zipped ↔
      HeadsFit (meansApply ∘ self.meaningOf) maxDepth 0 tree := by
    rw [← firsts, headsFit_map]
    rfl
  rw [← fits]
  constructor
  · rintro ⟨kept', schema, reduced', -, keeps, -⟩
    rw [← positions] at reduced'
    obtain rfl := Except.ok.inj (reducedZipped.symm.trans reduced')
    exact (heads_kept_iff wholes nodup).mp (keeps zipped wholes rankeds positions)
  · intro fit
    refine ⟨word (cut (fun tok => meansApply (self.meaningOf tok.1)) maxDepth 0 zipped),
      (numbered id (cut (meansApply ∘ self.meaningOf) maxDepth 0 tree) 1).1, ?_, ?_, ?_, ?_, ?_, ?_⟩
    · rw [← positions]
      exact reducedZipped
    · rw [kept]
      exact reduced
    · intro other wholeOther rankedOther same
      obtain rfl := word_inj wholes rankeds wholeOther rankedOther (positions.trans same.symm)
      exact (heads_kept_iff wholes nodup).mpr fit
    · rw [kept]
      exact decoded
    · rw [kept]
      exact printed
    · exact printsHeads_numbered whole (fits.mp fit) 1

/-- **Heads that are kept whole.** For every complete formula of known tokens and every depth but zero, the heads of
applications are kept whole and printed without variables exactly when every head that is kept has child nodes above the
depth only, or is an `apply` with a single one, and so on downwards. -/
theorem headsWhole_iff {expr : EncodedFormula} (complete : expr.IsPrefixCode) (knows : self.Knows expr) {maxDepth : Nat}
    (positive : maxDepth ≠ 0) :
    self.HeadsWhole expr maxDepth ↔
      ∃ tree, Whole tree ∧ Ranked EncodedToken.arity tree ∧ word tree = expr ∧
        HeadsFit (meansApply ∘ self.meaningOf) maxDepth 0 tree := by
  obtain ⟨tree, whole, ranked, rfl⟩ := exists_whole (EncodedFormula.isPrefixCode_iff.mp complete)
  rw [headsWhole_word_iff whole ranked knows positive]
  constructor
  · exact fun fit => ⟨tree, whole, ranked, rfl, fit⟩
  · rintro ⟨other, wholeOther, rankedOther, same, fit⟩
    rwa [word_inj wholeOther rankedOther whole ranked same] at fit

end Formulae

/-- A decoder of `apply#`, `times#`, `f#` and `ci#x`, under the ids 162 to 165. -/
def sampleEngine : SchemaEngine where
  decoder := ⟨[['a', 'p', 'p', 'l', 'y', '#'], ['t', 'i', 'm', 'e', 's', '#'], ['f', '#'], ['c', 'i', '#', 'x']]⟩
  cutoffHeuristic := .absolute

/-- `apply(times, x)`. -/
def plainHead : EncodedFormula := [encodedToken 162 2, encodedToken 163 0, encodedToken 165 0]

theorem headsWhole_plainHead :
    plainHead.IsPrefixCode ∧ sampleEngine.Knows plainHead ∧ (sampleEngine.HeadsWhole plainHead 1 ↔
      ∃ tree, Whole tree ∧ Ranked EncodedToken.arity tree ∧ word tree = plainHead ∧
        HeadsFit (meansApply ∘ sampleEngine.meaningOf) 1 0 tree) :=
  ⟨by decide, by unfold Knows; decide, headsWhole_iff (by decide) (by unfold Knows; decide) one_ne_zero⟩

/-- `apply(f(x), x)`. -/
def deepHead : PartialTree EncodedToken :=
  .node (encodedToken 162 2) [.node (encodedToken 164 1) [.node (encodedToken 165 0) []], .node (encodedToken 165 0) []]

/-- The head `f(x)` is cut at depth 1. -/
theorem not_headsWhole_deepHead : EncodedFormula.IsPrefixCode (word deepHead) ∧ sampleEngine.Knows (word deepHead) ∧
    ¬ sampleEngine.HeadsWhole (word deepHead) 1 := by
  have spelt : word deepHead = [encodedToken 162 2, encodedToken 164 1, encodedToken 165 0, encodedToken 165 0] := by
    simp [deepHead]
  have leaf : Whole (PartialTree.node (encodedToken 165 0) []) ∧
      Ranked EncodedToken.arity (PartialTree.node (encodedToken 165 0) []) :=
    ⟨.node fun _ member => (List.not_mem_nil member).elim, .node rfl fun _ member => (List.not_mem_nil member).elim⟩
  have whole : Whole deepHead := by simp [deepHead, whole_iff]
  have ranked : Ranked EncodedToken.arity deepHead := by
    refine .node rfl ?_
    rw [List.forall_mem_cons, List.forall_mem_singleton]
    exact ⟨.node rfl (List.forall_mem_singleton.mpr leaf.2), leaf.2⟩
  have knows : sampleEngine.Knows (word deepHead) := by
    rw [spelt, Knows]
    decide
  refine ⟨by rw [spelt]; decide, knows, fun heads => ?_⟩
  have fit := (headsWhole_word_iff whole ranked knows one_ne_zero).mp heads
  have intact := fit.head (by decide) _ rfl
  exact absurd (intact.keeps (List.cons_ne_nil _ _)) (by decide)

end SchemaEngine

end MathWebSearch
