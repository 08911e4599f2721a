/-
**What `decodeFormula` builds.**

The machine that reads the kept tokens back takes the same decisions as the one that kept them: it sees the same counts
and flags. So the tree it builds is the cut tree, with variables numbered in pre-order in place of the stubs.

* `numbered` — the tree with numbered variables.
* `decodeLoop_children`, `decodeLoop_word` — one node with its child nodes, in the middle of a run.
* `decodeFormula_word` — **the tree** that is read back.
-/

import MathWebSearch.Query.SchemaCut

namespace MathWebSearch

namespace SchemaEngine

open PartialTree

section Numbered

variable {α β : Type} (shown : α → β)

mutual

/-- The tree with variables in place of the stubs, numbered from `qvarCount` on, and the next number. -/
def numbered : PartialTree α → Nat → SchemaTree β × Nat
  | .stub, qvarCount => (.qvar (qvarCount % 2 ^ 32), qvarCount + 1)
  | .node label children, qvarCount =>
    (.token (shown label) (numberedAll children qvarCount).1, (numberedAll children qvarCount).2)

/-- Trees one after the other. -/
def numberedAll : List (PartialTree α) → Nat → List (SchemaTree β) × Nat
  | [], qvarCount => ([], qvarCount)
  | tree :: rest, qvarCount =>
    ((numbered tree qvarCount).1 :: (numberedAll rest (numbered tree qvarCount).2).1,
      (numberedAll rest (numbered tree qvarCount).2).2)

end

@[simp] theorem numbered_stub (qvarCount : Nat) :
    numbered shown .stub qvarCount = (.qvar (qvarCount % 2 ^ 32), qvarCount + 1) := by rw [numbered]

@[simp] theorem numbered_node (label : α) (children : List (PartialTree α)) (qvarCount : Nat) :
    numbered shown (.node label children) qvarCount =
      (.token (shown label) (numberedAll shown children qvarCount).1, (numberedAll shown children qvarCount).2) := by
  rw [numbered]

@[simp] theorem numberedAll_nil (qvarCount : Nat) : numberedAll shown [] qvarCount = ([], qvarCount) := by
  rw [numberedAll]

theorem numberedAll_cons (tree : PartialTree α) (rest : List (PartialTree α)) (qvarCount : Nat) :
    numberedAll shown (tree :: rest) qvarCount =
      ((numbered shown tree qvarCount).1 :: (numberedAll shown rest (numbered shown tree qvarCount).2).1,
        (numberedAll shown rest (numbered shown tree qvarCount).2).2) := by
  rw [numberedAll]

/-- Stubs become variables with consecutive numbers. -/
theorem numberedAll_replicate (count : Nat) : ∀ qvarCount,
    numberedAll shown (List.replicate count .stub) qvarCount =
      ((List.range count).map fun i => .qvar ((qvarCount + i) % 2 ^ 32), qvarCount + count) := by
  induction count with
  | zero => exact fun qvarCount => numberedAll_nil shown qvarCount
  | succ count ih =>
    intro qvarCount
    rw [List.replicate_succ, numberedAll_cons, numbered_stub, ih, List.range_succ_eq_map, List.map_cons, List.map_map]
    refine Prod.ext (congrArg₂ List.cons rfl (List.map_congr_left fun i _ => ?_)) ?_
    · show SchemaTree.qvar ((qvarCount + 1 + i) % 2 ^ 32) = SchemaTree.qvar ((qvarCount + (i + 1)) % 2 ^ 32)
      rw [Nat.add_assoc, Nat.add_comm 1 i]
    · show qvarCount + 1 + count = qvarCount + (count + 1)
      omega

/-! ### Other contents -/

mutual

/-- The schema with other contents. -/
def SchemaTree.map {γ : Type} (f : β → γ) : SchemaTree β → SchemaTree γ
  | .token content children => .token (f content) (SchemaTree.mapAll f children)
  | .qvar number => .qvar number

/-- Schemata with other contents. -/
def SchemaTree.mapAll {γ : Type} (f : β → γ) : List (SchemaTree β) → List (SchemaTree γ)
  | [] => []
  | tree :: rest => tree.map f :: SchemaTree.mapAll f rest

end

/-- What a label is printed as may be said later. -/
theorem numberedAll_map {γ : Type} {f : β → γ} {trees : List (PartialTree α)}
    (each : ∀ tree ∈ trees, ∀ qvarCount, numbered (f ∘ shown) tree qvarCount =
      ((numbered shown tree qvarCount).1.map f, (numbered shown tree qvarCount).2)) :
    ∀ qvarCount, numberedAll (f ∘ shown) trees qvarCount =
      (SchemaTree.mapAll f (numberedAll shown trees qvarCount).1, (numberedAll shown trees qvarCount).2) := by
  induction trees with
  | nil => intro qvarCount; rw [numberedAll_nil, numberedAll_nil, SchemaTree.mapAll]
  | cons tree rest ih =>
    intro qvarCount
    rw [List.forall_mem_cons] at each
    rw [numberedAll_cons, numberedAll_cons, each.1, ih each.2, SchemaTree.mapAll]

theorem numbered_map {γ : Type} {f : β → γ} (tree : PartialTree α) :
    ∀ qvarCount, numbered (f ∘ shown) tree qvarCount =
      ((numbered shown tree qvarCount).1.map f, (numbered shown tree qvarCount).2) := by
  induction tree with
  | stub => intro qvarCount; rw [numbered_stub, numbered_stub, SchemaTree.map]
  | node label children ih =>
    intro qvarCount
    rw [numbered_node, numbered_node, numberedAll_map shown ih, SchemaTree.map]
    rfl

/-- The labels may be replaced before. -/
theorem numberedAll_relabel {α' : Type} {f : α' → α} {trees : List (PartialTree α')}
    (each : ∀ tree ∈ trees, ∀ qvarCount, numbered shown (PartialTree.map f tree) qvarCount =
      numbered (shown ∘ f) tree qvarCount) :
    ∀ qvarCount, numberedAll shown (trees.map (PartialTree.map f)) qvarCount =
      numberedAll (shown ∘ f) trees qvarCount := by
  induction trees with
  | nil => intro qvarCount; rw [List.map_nil, numberedAll_nil, numberedAll_nil]
  | cons tree rest ih =>
    intro qvarCount
    rw [List.forall_mem_cons] at each
    rw [List.map_cons, numberedAll_cons, numberedAll_cons, each.1, ih each.2]

theorem numbered_relabel {α' : Type} {f : α' → α} (tree : PartialTree α') :
    ∀ qvarCount, numbered shown (PartialTree.map f tree) qvarCount = numbered (shown ∘ f) tree qvarCount := by
  induction tree with
  | stub => intro qvarCount; rw [PartialTree.map_stub, numbered_stub, numbered_stub]
  | node label children ih =>
    intro qvarCount
    rw [PartialTree.map_node, numbered_node, numbered_node, numberedAll_relabel shown ih]
    rfl

end Numbered

section Machine

variable {α β : Type} {ar : α → Nat} {isApply : α → Except Stop Bool} {print : α → Except Stop β}
  {apply : α → Bool} {shown : α → β} {depth : Nat}

/-- A subtree is built below the current node, and its root is the current node. -/
def Cursor.newSubtree (self : Cursor β) : SchemaTree β → Cursor β
  | .token content children => ⟨content, children, (self.content, self.children) :: self.above⟩
  | .qvar _ => self

/-- One more child node. -/
def Cursor.addChildren (self : Cursor β) (trees : List (SchemaTree β)) : Cursor β :=
  { self with children := self.children ++ trees }

theorem Cursor.addChildren_append (self : Cursor β) (front back : List (SchemaTree β)) :
    (self.addChildren front).addChildren back = self.addChildren (front ++ back) := by
  rw [addChildren, addChildren, addChildren, List.append_assoc]

/-- Going up from a subtree that is built, when it was the last child node. -/
theorem climb_one (first : Bool) (stack : Unexplored) (currCmml : Cursor β) (content : β)
    (children : List (SchemaTree β)) : climb ((1, first) :: stack) (currCmml.newSubtree (.token content children)) =
      climb stack (currCmml.addChildren [.token content children]) := by
  rw [climb, if_neg one_ne_zero]
  rfl

/-- Going up from a subtree that is built, when there are more child nodes to come. -/
theorem climb_more (count : Nat) (first : Bool) (stack : Unexplored) (currCmml : Cursor β) (content : β)
    (children : List (SchemaTree β)) :
    climb ((count + 2, first) :: stack) (currCmml.newSubtree (.token content children)) =
      .ok ((count + 1, false) :: stack, currCmml.addChildren [.token content children]) := by
  have notLast : ¬ count + 2 = 1 := by omega
  rw [climb, if_neg (Nat.succ_ne_zero _)]
  simp only [if_neg notLast]
  rfl

/-- Tokens can be printed. -/
def Printed (print : α → Except Stop β) (shown : α → β) (text : List α) : Prop :=
  ∀ token ∈ text, print token = .ok (shown token)

/-- The end of a round: the loop goes on while there are tokens, and completes the tree behind the last one. -/
def proceed (ar : α → Nat) (isApply : α → Except Stop Bool) (print : α → Except Stop β) (depth : Nat) (expr : List α)
    (unexplored : Unexplored) (currCmml : Cursor β) (qvarCount : Nat) : Except Stop (Cursor β) :=
  if expr = [] then completeTree unexplored currCmml qvarCount
  else decodeLoop ar isApply print depth expr unexplored currCmml qvarCount

theorem proceed_of_ne_nil {expr : List α} (some : expr ≠ []) (unexplored : Unexplored) (currCmml : Cursor β)
    (qvarCount : Nat) : proceed ar isApply print depth expr unexplored currCmml qvarCount =
      decodeLoop ar isApply print depth expr unexplored currCmml qvarCount := if_neg some

/-- Nothing is left. -/
theorem proceed_end (currCmml : Cursor β) (qvarCount : Nat) :
    proceed ar isApply print depth [] [] currCmml qvarCount = .ok currCmml := by
  rw [proceed, if_pos rfl, completeTree]

/-- The child nodes that are left of a node are variables. -/
theorem decodeLoop_drop {anonExprs : Nat} {stack : Unexplored} (deep : depth ≤ stack.length + 1) (expr : List α)
    (currCmml : Cursor β) (qvarCount : Nat) :
    decodeLoop ar isApply print depth expr ((anonExprs, false) :: stack) currCmml qvarCount =
      (climb stack (currCmml.addQvars anonExprs qvarCount) >>= fun left =>
        proceed ar isApply print depth expr left.1 left.2 (qvarCount + anonExprs)) := by
  unfold decodeLoop
  simp only [deep, and_self, if_true]
  cases climb stack (currCmml.addQvars anonExprs qvarCount) <;> rfl

/-- Also behind the last token. -/
theorem proceed_drop {anonExprs : Nat} {stack : Unexplored} (deep : depth ≤ stack.length + 1) (expr : List α)
    (currCmml : Cursor β) (qvarCount : Nat) :
    proceed ar isApply print depth expr ((anonExprs, false) :: stack) currCmml qvarCount =
      (climb stack (currCmml.addQvars anonExprs qvarCount) >>= fun left =>
        proceed ar isApply print depth expr left.1 left.2 (qvarCount + anonExprs)) := by
  by_cases last : expr = []
  · subst last
    rw [proceed, if_pos rfl, completeTree, if_neg (by simp)]
    cases climb stack (currCmml.addQvars anonExprs qvarCount) <;> rfl
  · rw [proceed_of_ne_nil last, decodeLoop_drop deep]

/-- One round that reads a token. -/
theorem decodeLoop_keep {count : Nat} {first : Bool} {stack : Unexplored} (keep : stack.length + 1 < depth ∨ first = true)
    (token : α) (rest : List α) (currCmml : Cursor β) (qvarCount : Nat) :
    decodeLoop ar isApply print depth (token :: rest) ((count, first) :: stack) currCmml qvarCount =
      (print token >>= fun content =>
        if ar token ≠ 0 then isApply token >>= fun apply =>
          proceed ar isApply print depth rest ((ar token, apply) :: (count, first) :: stack)
            (currCmml.newChildNode content) qvarCount
        else climb ((count, first) :: stack) (currCmml.newChildNode content) >>= fun left =>
          proceed ar isApply print depth rest left.1 left.2 qvarCount) := by
  rw [decodeLoop, if_neg]
  · rfl
  · rintro ⟨deep, rfl⟩
    rcases keep with above | first
    · omega
    · cases first

/-- What is built of a tree, and the number that follows. -/
abbrev built (shown : α → β) (apply : α → Bool) (depth level : Nat) (tree : PartialTree α) (qvarCount : Nat) :
    SchemaTree β × Nat := numbered shown (cut apply depth level tree) qvarCount

/-- What is built of child nodes. -/
abbrev builtAll (shown : α → β) (apply : α → Bool) (depth level : Nat) (first : Bool)
    (children : List (PartialTree α)) (qvarCount : Nat) : List (SchemaTree β) × Nat :=
  numberedAll shown (cutChildren apply depth level first children) qvarCount

/-- **The child nodes of a node**: they are read back, or variables stand for them. -/
theorem decodeLoop_children {children : List (PartialTree α)} (whole : ∀ child ∈ children, Whole child)
    (each : ∀ child ∈ children, ∀ (rest : List α) (count : Nat) (first : Bool) (stack : Unexplored)
      (currCmml : Cursor β) (qvarCount : Nat), (stack.length + 1 < depth ∨ first = true) →
      decodeLoop ar isApply print depth (word (cut apply depth (stack.length + 1) child) ++ rest)
          ((count, first) :: stack) currCmml qvarCount =
        (climb ((count, first) :: stack)
            (currCmml.newSubtree (built shown apply depth (stack.length + 1) child qvarCount).1) >>= fun left =>
          proceed ar isApply print depth rest left.1 left.2
            (built shown apply depth (stack.length + 1) child qvarCount).2))
    (rest : List α) (stack : Unexplored) : ∀ (first : Bool) (currCmml : Cursor β) (qvarCount : Nat), children ≠ [] →
      proceed ar isApply print depth (words (cutChildren apply depth (stack.length + 1) first children) ++ rest)
          ((children.length, first) :: stack) currCmml qvarCount =
        (climb stack (currCmml.addChildren
            (builtAll shown apply depth (stack.length + 1) first children qvarCount).1) >>= fun left =>
          proceed ar isApply print depth rest left.1 left.2
            (builtAll shown apply depth (stack.length + 1) first children qvarCount).2) := by
  induction children with
  | nil => exact fun _ _ _ some => absurd rfl some
  | cons child children ih =>
    intro first currCmml qvarCount _
    by_cases keep : stack.length + 1 < depth ∨ first = true
    · cases child with
      | stub => exact absurd (whole _ List.mem_cons_self) not_whole_stub
      | node label inner =>
        rw [builtAll, cutChildren_cons, if_pos keep, words_cons, List.append_assoc, numberedAll_cons,
          proceed_of_ne_nil (by simp), each _ List.mem_cons_self _ _ _ _ _ _ keep, built, cut_node, numbered_node]
        cases children with
        | nil =>
          rw [List.length_singleton, climb_one, cutChildren_nil, words_nil, List.nil_append, numberedAll_nil]
        | cons second children =>
          have later := ih (fun other among => whole other (List.mem_cons_of_mem _ among))
            (fun other among => each other (List.mem_cons_of_mem _ among)) false
            (currCmml.addChildren [(built shown apply depth (stack.length + 1) (.node label inner) qvarCount).1])
            (built shown apply depth (stack.length + 1) (.node label inner) qvarCount).2 (List.cons_ne_nil _ _)
          rw [Cursor.addChildren_append, built, cut_node, numbered_node] at later
          rw [List.length_cons, List.length_cons, climb_more]
          exact later
    · obtain ⟨deep, plain⟩ := not_or.mp keep
      rw [Bool.not_eq_true] at plain
      subst plain
      rw [builtAll, cutChildren_dropped (not_lt.mp deep), words_replicate_stub, List.nil_append, numberedAll_replicate,
        proceed_drop (not_lt.mp deep)]
      rfl

/-- **A node that is read back**, with all that is kept below it. -/
theorem decodeLoop_word {tree : PartialTree α} (whole : Whole tree) (ranked : Ranked ar tree)
    (known : Known isApply apply (word tree)) (printed : Printed print shown (word tree)) :
    ∀ (rest : List α) (count : Nat) (first : Bool) (stack : Unexplored) (currCmml : Cursor β) (qvarCount : Nat),
      (stack.length + 1 < depth ∨ first = true) →
      decodeLoop ar isApply print depth (word (cut apply depth (stack.length + 1) tree) ++ rest)
          ((count, first) :: stack) currCmml qvarCount =
        (climb ((count, first) :: stack)
            (currCmml.newSubtree (built shown apply depth (stack.length + 1) tree qvarCount).1) >>= fun left =>
          proceed ar isApply print depth rest left.1 left.2
            (built shown apply depth (stack.length + 1) tree qvarCount).2) := by
  induction tree with
  | stub => exact absurd whole not_whole_stub
  | node label children ih =>
    intro rest count first stack currCmml qvarCount keep
    have length := ranked.length
    have here : isApply label = .ok (apply label) := known label (by rw [word_node]; exact List.mem_cons_self)
    have text : print label = .ok (shown label) := printed label (by rw [word_node]; exact List.mem_cons_self)
    have inside : ∀ child ∈ children, ∀ token ∈ word child, token ∈ word (PartialTree.node label children) := by
      intro child member token among
      rw [word_node]
      exact List.mem_cons_of_mem _ (mem_words.mpr ⟨child, member, among⟩)
    have each := fun child member => ih child member (whole.children child member) (ranked.children child member)
      (fun token among => known token (inside child member token among))
      (fun token among => printed token (inside child member token among))
    rw [built, cut_node, word_node, List.cons_append, decodeLoop_keep keep, text, numbered_node, ← length]
    cases children with
    | nil =>
      rw [cutChildren_nil, words_nil, numberedAll_nil]
      rfl
    | cons child children =>
      have below := decodeLoop_children whole.children each rest ((count, first) :: stack) (apply label)
        (currCmml.newChildNode (shown label)) qvarCount (List.cons_ne_nil _ _)
      rw [here]
      exact below

/-- **The tree that is read back** from the tokens that were kept of a complete formula. -/
theorem decodeFormula_word {tree : PartialTree α} (whole : Whole tree) (ranked : Ranked ar tree)
    (known : Known isApply apply (word tree)) (printed : Printed print shown (word tree)) :
    decodeFormula ar isApply print (word (cut apply depth 0 tree)) depth =
      .ok (numbered shown (cut apply depth 0 tree) 1).1 := by
  cases tree with
  | stub => exact absurd whole not_whole_stub
  | node label children =>
    have here : isApply label = .ok (apply label) := known label (by rw [word_node]; exact List.mem_cons_self)
    have text : print label = .ok (shown label) := printed label (by rw [word_node]; exact List.mem_cons_self)
    have inside : ∀ child ∈ children, ∀ token ∈ word child, token ∈ word (PartialTree.node label children) := by
      intro child member token among
      rw [word_node]
      exact List.mem_cons_of_mem _ (mem_words.mpr ⟨child, member, among⟩)
    rw [cut_node, word_node, decodeFormula, text, here, numbered_node, ← ranked.length]
    cases children with
    | nil => rw [cutChildren_nil, numberedAll_nil]; rfl
    | cons child children =>
      have each := fun other member => @decodeLoop_word _ _ _ _ print apply shown depth other
        (whole.children other member) (ranked.children other member)
        (fun token among => known token (inside other member token among))
        (fun token among => printed token (inside other member token among))
      have below := decodeLoop_children whole.children each [] [] (apply label) ⟨shown label, [], []⟩ 1
        (List.cons_ne_nil _ _)
      -- the loop is entered without asking whether there are tokens left
      have entered : decodeLoop ar isApply print depth
          (words (cutChildren apply depth 1 (apply label) (child :: children))) [((child :: children).length, apply label)]
          ⟨shown label, [], []⟩ 1 =
        proceed ar isApply print depth (words (cutChildren apply depth 1 (apply label) (child :: children)))
          [((child :: children).length, apply label)] ⟨shown label, [], []⟩ 1 := by
        by_cases none : words (cutChildren apply depth 1 (apply label) (child :: children)) = []
        · have dropped : ¬ (1 < depth ∨ apply label = true) := by
            intro keep
            rw [cutChildren_cons, if_pos keep, words_cons, List.append_eq_nil_iff] at none
            cases child with
            | stub => exact not_whole_stub (whole.children _ List.mem_cons_self)
            | node label inner =>
              rw [cut_node, word_node] at none
              exact List.cons_ne_nil _ _ none.1
          obtain ⟨deep, plain⟩ := not_or.mp dropped
          rw [Bool.not_eq_true] at plain
          rw [plain, decodeLoop_drop (not_lt.mp deep), proceed_drop (not_lt.mp deep)]
        · exact (proceed_of_ne_nil none _ _ _).symm
      rw [List.append_nil] at below
      have reads := entered.trans below
      have ends : decodeLoop ar isApply print depth
          (words (cutChildren apply depth 1 (apply label) (child :: children))) [((child :: children).length, apply label)]
          ⟨shown label, [], []⟩ 1 =
            .ok ⟨shown label, (builtAll shown apply depth 1 (apply label) (child :: children) 1).1, []⟩ :=
        reads.trans (@proceed_end _ _ ar isApply print depth _ _)
      simp only [bind, Except.bind, if_neg (Nat.succ_ne_zero children.length), List.length_cons] at ends ⊢
      rw [ends]
      rfl

end Machine

end SchemaEngine

end MathWebSearch
