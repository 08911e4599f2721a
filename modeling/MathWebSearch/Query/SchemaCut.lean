/-
**What `reduceFormula` keeps.**

The tokens of a formula that is complete are the word of a tree, and those that are kept are the word of the tree cut at
a depth: a node is kept together with its parent when it is above the depth, or when it is the first child of an `apply`.

* `cut` — the tree with stubs in place of what is dropped.
* `completeExpression_word` — the stack of `completeExpression` finds the end of a subexpression.
* `reduceFormula_word` — **the tokens that are kept** are the word of the cut tree.
-/

import MathWebSearch.Query.SchemaEngine
import MathWebSearch.Library.PartialTree

namespace MathWebSearch

namespace SchemaEngine

open PartialTree

section Cut

variable {α : Type} (apply : α → Bool) (depth : Nat)

mutual

/-- The tree cut at a depth; its root, which is on the given level, is kept. -/
def cut (level : Nat) : PartialTree α → PartialTree α
  | .stub => .stub
  | .node label children => .node label (cutChildren (level + 1) (apply label) children)

/-- The child nodes on a level; `isFirstChild` says that the first of them is the first child of an `apply`. -/
def cutChildren (level : Nat) (isFirstChild : Bool) : List (PartialTree α) → List (PartialTree α)
  | [] => []
  | child :: rest =>
    (if level < depth ∨ isFirstChild = true then cut level child else .stub) :: cutChildren level false rest

end

@[simp] theorem cut_stub (level : Nat) : cut apply depth level .stub = .stub := by rw [cut]

@[simp] theorem cut_node (level : Nat) (label : α) (children : List (PartialTree α)) :
    cut apply depth level (.node label children) =
      .node label (cutChildren apply depth (level + 1) (apply label) children) := by rw [cut]

@[simp] theorem cutChildren_nil (level : Nat) (isFirstChild : Bool) :
    cutChildren apply depth level isFirstChild [] = [] := by rw [cutChildren]

theorem cutChildren_cons (level : Nat) (isFirstChild : Bool) (child : PartialTree α) (rest : List (PartialTree α)) :
    cutChildren apply depth level isFirstChild (child :: rest) =
      (if level < depth ∨ isFirstChild = true then cut apply depth level child else .stub) ::
        cutChildren apply depth level false rest := by rw [cutChildren]

variable {apply depth}

/-- Below the depth, all that is not the first child of an `apply` is dropped. -/
theorem cutChildren_dropped {level : Nat} (deep : depth ≤ level) (children : List (PartialTree α)) :
    cutChildren apply depth level false children = List.replicate children.length .stub := by
  induction children with
  | nil => rw [cutChildren_nil]; rfl
  | cons child rest ih =>
    rw [cutChildren_cons, ih, List.length_cons, List.replicate_succ, if_neg]
    rintro (above | first)
    · omega
    · cases first

/-- Cutting does not look at the labels but for `apply`. -/
theorem cutChildren_map {β : Type} {f : β → α} {level : Nat} {children : List (PartialTree β)}
    (each : ∀ child ∈ children, cut apply depth level (map f child) = map f (cut (apply ∘ f) depth level child)) :
    ∀ isFirstChild, cutChildren apply depth level isFirstChild (children.map (map f)) =
      (cutChildren (apply ∘ f) depth level isFirstChild children).map (map f) := by
  induction children with
  | nil => intro isFirstChild; rw [cutChildren_nil]; exact cutChildren_nil _ _ _ _
  | cons child rest ih =>
    intro isFirstChild
    rw [List.forall_mem_cons] at each
    rw [List.map_cons, cutChildren_cons, cutChildren_cons, List.map_cons, each.1, ih each.2, apply_ite (map f), map_stub]

theorem cut_map {β : Type} {f : β → α} (tree : PartialTree β) :
    ∀ level, cut apply depth level (map f tree) = map f (cut (apply ∘ f) depth level tree) := by
  induction tree with
  | stub => intro level; rw [map_stub, cut_stub, cut_stub, map_stub]
  | node label children ih =>
    intro level
    rw [map_node, cut_node, cut_node, map_node, cutChildren_map fun child member => ih child member _]
    rfl

end Cut

section Machine

variable {α : Type} {ar : α → Nat} {isApply : α → Except Stop Bool} {apply : α → Bool} {depth : Nat}

/-! ### `completeExpression` -/

/-- A subexpression is read to its end, whatever the stack below is. -/
theorem completeLoop_word {tree : PartialTree α} (whole : Whole tree) (ranked : Ranked ar tree) :
    ∀ (rest : List α) (unexplored : List Nat), completeLoop ar (word tree ++ rest) unexplored =
      (closeCounts unexplored >>= fun unexplored =>
        if unexplored = [] then .ok rest else completeLoop ar rest unexplored) := by
  induction tree with
  | stub => exact absurd whole not_whole_stub
  | node label children ih =>
    intro rest unexplored
    have length := ranked.length
    -- the children, one after the other
    have each : ∀ front : List (PartialTree α), (∀ child ∈ front, child ∈ children) → front ≠ [] →
        completeLoop ar (words front ++ rest) (front.length :: unexplored) =
          (closeCounts unexplored >>= fun unexplored =>
            if unexplored = [] then .ok rest else completeLoop ar rest unexplored) := by
      intro front
      induction front with
      | nil => exact fun _ some => absurd rfl some
      | cons child front ihFront =>
        intro inside _
        have member := inside child List.mem_cons_self
        rw [words_cons, List.append_assoc,
          ih child member (whole.children child member) (ranked.children child member)]
        cases front with
        | nil =>
          rw [List.length_singleton, words_nil, List.nil_append, closeCounts, if_neg one_ne_zero, if_pos rfl]
        | cons second front =>
          have later := ihFront (fun other among => inside other (List.mem_cons_of_mem _ among)) (List.cons_ne_nil _ _)
          rw [List.length_cons, closeCounts, if_neg (Nat.succ_ne_zero _), if_neg (by simp), Nat.add_sub_cancel]
          exact later
    rw [word_node, List.cons_append, completeLoop, exploreCounts, ← length]
    cases children with
    | nil => rw [words_nil, List.nil_append]; rfl
    | cons child children =>
      rw [if_pos (by simp)]
      exact each (child :: children) (fun other among => among) (List.cons_ne_nil _ _)

/-- **The end of a subexpression.** -/
theorem completeExpression_word {tree : PartialTree α} (whole : Whole tree) (ranked : Ranked ar tree) (rest : List α) :
    completeExpression ar (word tree ++ rest) = .ok rest := by
  rw [completeExpression, completeLoop_word whole ranked]
  rfl

theorem completeExpressions_words {trees : List (PartialTree α)} (whole : ∀ tree ∈ trees, Whole tree)
    (ranked : ∀ tree ∈ trees, Ranked ar tree) (rest : List α) :
    completeExpressions ar trees.length (words trees ++ rest) = .ok rest := by
  induction trees with
  | nil => rw [words_nil]; rfl
  | cons tree trees ih =>
    rw [List.length_cons, completeExpressions, words_cons, List.append_assoc,
      completeExpression_word (whole tree List.mem_cons_self) (ranked tree List.mem_cons_self)]
    exact ih (fun other member => whole other (List.mem_cons_of_mem _ member))
      fun other member => ranked other (List.mem_cons_of_mem _ member)

/-! ### `reduceFormula` -/

/-- The test for `apply` goes through on tokens. -/
def Known (isApply : α → Except Stop Bool) (apply : α → Bool) (text : List α) : Prop :=
  ∀ token ∈ text, isApply token = .ok (apply token)

@[simp] theorem reduceLoop_nil (unexplored : Unexplored) (kept : List α) :
    reduceLoop ar isApply depth [] unexplored kept = .ok kept := by rw [reduceLoop]

/-- One round of the loop that drops what is left of the child nodes. -/
theorem reduceLoop_drop {exprToComplete : Nat} {stack : Unexplored} (deep : depth ≤ stack.length + 1) {text : List α}
    (some : text ≠ []) (kept : List α) :
    reduceLoop ar isApply depth text ((exprToComplete, false) :: stack) kept =
      (completeExpressions ar exprToComplete text >>= fun rest =>
        countDown stack >>= fun unexplored => reduceLoop ar isApply depth rest unexplored kept) := by
  obtain ⟨token, rest, rfl⟩ := List.exists_cons_of_ne_nil some
  rw [reduceLoop, if_pos ⟨deep, rfl⟩]
  cases completeExpressions ar exprToComplete (token :: rest) with
  | error stop => rfl
  | ok left => cases countDown stack <;> rfl

/-- One round that keeps a token. -/
theorem reduceLoop_keep {count : Nat} {first : Bool} {stack : Unexplored} (keep : stack.length + 1 < depth ∨ first = true)
    (token : α) (rest kept : List α) :
    reduceLoop ar isApply depth (token :: rest) ((count, first) :: stack) kept =
      if ar token ≠ 0 then isApply token >>= fun apply =>
        reduceLoop ar isApply depth rest ((ar token, apply) :: (count, first) :: stack) (kept ++ [token])
      else countDown ((count, first) :: stack) >>= fun unexplored =>
        reduceLoop ar isApply depth rest unexplored (kept ++ [token]) := by
  rw [reduceLoop, if_neg]
  rintro ⟨deep, rfl⟩
  rcases keep with above | first
  · omega
  · cases first

/-- **The child nodes of a node**: what is kept of them is the word of the cut children. -/
theorem reduceLoop_children {children : List (PartialTree α)} (whole : ∀ child ∈ children, Whole child)
    (ranked : ∀ child ∈ children, Ranked ar child)
    (each : ∀ child ∈ children, ∀ (rest kept : List α) (count : Nat) (first : Bool) (stack : Unexplored),
      (stack.length + 1 < depth ∨ first = true) →
      reduceLoop ar isApply depth (word child ++ rest) ((count, first) :: stack) kept =
        (countDown ((count, first) :: stack) >>= fun unexplored =>
          reduceLoop ar isApply depth rest unexplored (kept ++ word (cut apply depth (stack.length + 1) child))))
    (rest : List α) (stack : Unexplored) : ∀ (first : Bool) (kept : List α), children ≠ [] →
      reduceLoop ar isApply depth (words children ++ rest) ((children.length, first) :: stack) kept =
        (countDown stack >>= fun unexplored => reduceLoop ar isApply depth rest unexplored
          (kept ++ words (cutChildren apply depth (stack.length + 1) first children))) := by
  induction children with
  | nil => exact fun _ _ some => absurd rfl some
  | cons child children ih =>
    intro first kept _
    by_cases keep : stack.length + 1 < depth ∨ first = true
    · rw [words_cons, List.append_assoc, each child List.mem_cons_self _ _ _ _ _ keep, cutChildren_cons, if_pos keep,
        words_cons, ← List.append_assoc]
      cases children with
      | nil =>
        rw [List.length_singleton, countDown, if_neg one_ne_zero, if_pos rfl, cutChildren_nil, words_nil,
          List.nil_append, List.append_nil]
      | cons second children =>
        have later := ih (fun other among => whole other (List.mem_cons_of_mem _ among))
          (fun other among => ranked other (List.mem_cons_of_mem _ among))
          (fun other among => each other (List.mem_cons_of_mem _ among)) false
          (kept ++ word (cut apply depth (stack.length + 1) child)) (List.cons_ne_nil _ _)
        rw [List.length_cons, countDown, if_neg (Nat.succ_ne_zero _), if_neg (by simp), Nat.add_sub_cancel]
        exact later
    · obtain ⟨deep, plain⟩ := not_or.mp keep
      rw [Bool.not_eq_true] at plain
      subst plain
      have some := words_ne_nil whole (List.cons_ne_nil _ _)
      rw [reduceLoop_drop (not_lt.mp deep) (List.append_ne_nil_of_left_ne_nil some _),
        completeExpressions_words whole ranked, cutChildren_dropped (not_lt.mp deep), words_replicate_stub,
        List.append_nil]
      rfl

/-- **A node that is kept**: what is kept below it is the word of the cut tree. -/
theorem reduceLoop_word {tree : PartialTree α} (whole : Whole tree) (ranked : Ranked ar tree)
    (known : Known isApply apply (word tree)) : ∀ (rest kept : List α) (count : Nat) (first : Bool) (stack : Unexplored),
      (stack.length + 1 < depth ∨ first = true) →
      reduceLoop ar isApply depth (word tree ++ rest) ((count, first) :: stack) kept =
        (countDown ((count, first) :: stack) >>= fun unexplored =>
          reduceLoop ar isApply depth rest unexplored (kept ++ word (cut apply depth (stack.length + 1) tree))) := by
  induction tree with
  | stub => exact absurd whole not_whole_stub
  | node label children ih =>
    intro rest kept count first stack keep
    have length := ranked.length
    have each := fun child member => ih child member (whole.children child member) (ranked.children child member)
      fun token among => known token (by
        rw [word_node]
        exact List.mem_cons_of_mem _ (mem_words.mpr ⟨child, member, among⟩))
    have here : isApply label = .ok (apply label) := known label (by rw [word_node]; exact List.mem_cons_self)
    rw [word_node, List.cons_append, reduceLoop_keep keep, cut_node, word_node, ← length]
    cases children with
    | nil =>
      rw [words_nil, List.nil_append, cutChildren_nil, words_nil]
      rfl
    | cons child children =>
      have below := reduceLoop_children whole.children ranked.children each rest ((count, first) :: stack)
        (apply label) (kept ++ [label]) (List.cons_ne_nil _ _)
      rw [if_pos (by simp), here, show kept ++ label :: words (cutChildren apply depth (stack.length + 1 + 1) (apply label)
        (child :: children)) = kept ++ [label] ++ words (cutChildren apply depth (stack.length + 1 + 1) (apply label)
        (child :: children)) by rw [List.append_assoc, List.singleton_append]]
      exact below

/-- **The tokens that are kept** of a complete formula. -/
theorem reduceFormula_word {tree : PartialTree α} (whole : Whole tree) (ranked : Ranked ar tree)
    (known : Known isApply apply (word tree)) (positive : depth ≠ 0) :
    reduceFormula ar isApply (word tree) depth = .ok (word (cut apply depth 0 tree)) := by
  cases tree with
  | stub => exact absurd whole not_whole_stub
  | node label children =>
    have here : isApply label = .ok (apply label) := known label (by rw [word_node]; exact List.mem_cons_self)
    have knownChildren : ∀ child ∈ children, Known isApply apply (word child) := fun child member token among =>
      known token (by
        rw [word_node]
        exact List.mem_cons_of_mem _ (mem_words.mpr ⟨child, member, among⟩))
    rw [word_node, reduceFormula, if_neg positive, here, cut_node, word_node, ← ranked.length]
    cases children with
    | nil =>
      rw [words_nil, cutChildren_nil, words_nil]
      exact reduceLoop_nil _ _
    | cons child children =>
      have below := @reduceLoop_children _ _ _ _ depth _ whole.children ranked.children (fun child member =>
        reduceLoop_word (whole.children child member) (ranked.children child member) (knownChildren child member))
        [] [] (apply label) [label] (List.cons_ne_nil _ _)
      rw [List.append_nil] at below
      exact below.trans (reduceLoop_nil _ _)

end Machine

end SchemaEngine

end MathWebSearch
