/-
**Schemata as they are printed** (`CmmlToken::toString` of the roots of `SchemaEngine::getSchemata`).

A response has the roots of its schemata as texts. A variable is printed with a tag that no node of a formula has, so that
the text of what is read back of a tree says where the tree was cut.

* `cut_of_toString` — equal texts, in front of anything, come from equal cuts.
* `keptSymbols_eq_of_toString` — **the text of a root says which nodes are left** of a tree.
-/

import MathWebSearch.Query.RelativeSchemata
import MathWebSearch.Xmlparser.PrintedTokens

namespace MathWebSearch

open CmmlToken PartialTree

namespace SchemaEngine

/-- No tag of a tree has a blank. -/
def BlankFree (tree : CmmlToken) : Prop := ∀ inner ∈ subtrees tree, ' ' ∉ inner.getTag

theorem BlankFree.child {tree child : CmmlToken} (blankFree : BlankFree tree) (member : child ∈ tree.getChildNodes) :
    BlankFree child := fun inner inside => blankFree inner (mem_subtrees_of_child member inside)

/-! ### Texts of tokens -/

/-- A token without attributes is printed as its tag, its text and its child nodes. -/
theorem toString_append (indent : Nat) (tag : Str) (text : TextContent) (children : List CmmlToken) (rest : Str) :
    toString indent (.mk tag [] text children) ++ rest = padding indent ++ '<' :: (tag ++ ' ' :: '>' :: (text.val ++
      ((if children = [] then [] else '\n' :: toStringAll (indent + 2) children ++ padding indent) ++
        ('<' :: '/' :: tag ++ ['>', '\n'] ++ rest)))) := by
  rw [CmmlToken.toString]
  simp only [Xml.attributesText, List.flatMap_nil, List.append_assoc, List.cons_append, List.nil_append]

/-- What stands in front of the first blank. -/
theorem takeWhile_blankFree {tag : Str} (blankFree : ' ' ∉ tag) (rest : Str) :
    (tag ++ ' ' :: rest).takeWhile (· ≠ ' ') = tag := by
  have all : ∀ char ∈ tag, decide (char ≠ ' ') = true := fun char member =>
    decide_eq_true fun blank => blankFree (blank ▸ member)
  rw [List.takeWhile_append_of_pos all, List.takeWhile_cons_of_neg (by decide), List.append_nil]

/-- A token with another tag is printed as something else. -/
theorem toString_ne {tag tag' : Str} (blankFree : ' ' ∉ tag) (blankFree' : ' ' ∉ tag') (different : tag ≠ tag') (indent : Nat)
    (text text' : TextContent) (children children' : List CmmlToken) (rest rest' : Str) :
    toString indent (.mk tag [] text children) ++ rest ≠ toString indent (.mk tag' [] text' children') ++ rest' := by
  intro same
  rw [toString_append, toString_append] at same
  have tags := congrArg (List.takeWhile (· ≠ ' ')) (List.cons.inj (List.append_cancel_left same)).2
  rw [takeWhile_blankFree blankFree, takeWhile_blankFree blankFree'] at tags
  exact different tags

/-! ### What is read back of a tree -/

section Depths

variable {depth depth' : Nat}

/-- What is left of a child node. -/
def cutChild (depth level : Nat) (first : Bool) (child : CmmlToken) : PartialTree CmmlToken :=
  if level < depth ∨ first = true then cut headed depth level child.skeleton else .stub

theorem readChild_eq (level : Nat) (first : Bool) (child : CmmlToken) (number : Nat) :
    readChild depth level first child number =
      numbered (fun inner => contentOf inner.getMeaning) (cutChild depth level first child) number := by
  rw [readChild, cutChild]
  split_ifs
  · rfl
  · rw [numbered_stub]

/-- The text of a child node says where it was cut. -/
theorem cutChild_of_toString {level indent number : Nat} {first : Bool} {child : CmmlToken} (plain : child.Plain)
    (constant : child.getType = .constant) (blankFree : BlankFree child) {rest rest' : Str}
    (here : toString indent (readAt depth level child number).1.toCmml ++ rest =
      toString indent (readAt depth' level child number).1.toCmml ++ rest' →
        cut headed depth level child.skeleton = cut headed depth' level child.skeleton ∧ rest = rest')
    (same : toString indent (readChild depth level first child number).1.toCmml ++ rest =
      toString indent (readChild depth' level first child number).1.toCmml ++ rest') :
    cutChild depth level first child = cutChild depth' level first child ∧ rest = rest' := by
  have tag := plain child (mem_subtrees_self child)
  have blank := blankFree child (mem_subtrees_self child)
  have notVar := getTag_ne_qvarTag constant
  rw [readChild, readChild] at same
  rw [cutChild, cutChild]
  split_ifs at same ⊢
  · exact here same
  · rw [toCmml_readAt tag, toCmml_qvar] at same
    exact absurd same (toString_ne blank (by decide) notVar _ _ _ _ _ _ _)
  · rw [toCmml_readAt tag, toCmml_qvar] at same
    exact absurd same (toString_ne (by decide) blank notVar.symm _ _ _ _ _ _ _)
  · exact ⟨rfl, List.append_cancel_left same⟩

/-- The texts of child nodes, one after the other. -/
theorem cutChildren_of_toString {level indent : Nat} {children : List CmmlToken} (plain : ∀ child ∈ children, child.Plain)
    (constants : ∀ child ∈ children, child.getType = .constant) (blankFree : ∀ child ∈ children, BlankFree child)
    (each : ∀ child ∈ children, ∀ number rest rest', toString indent (readAt depth level child number).1.toCmml ++ rest =
      toString indent (readAt depth' level child number).1.toCmml ++ rest' →
        cut headed depth level child.skeleton = cut headed depth' level child.skeleton ∧ rest = rest') :
    ∀ (first : Bool) (number : Nat) (rest rest' : Str),
      toStringAll indent ((readAll depth level first children number).1.map SchemaTree.toCmml) ++ rest =
        toStringAll indent ((readAll depth' level first children number).1.map SchemaTree.toCmml) ++ rest' →
      cutChildren headed depth level first (children.map skeleton) =
        cutChildren headed depth' level first (children.map skeleton) ∧ rest = rest' := by
  induction children with
  | nil =>
    intro first number rest rest' same
    rw [readAll_nil, readAll_nil] at same
    exact ⟨by rw [List.map_nil, cutChildren_nil, cutChildren_nil], same⟩
  | cons child children ih =>
    intro first number rest rest' same
    rw [List.forall_mem_cons] at plain constants blankFree each
    rw [readAll_cons, readAll_cons, List.map_cons, List.map_cons, toStringAll, toStringAll, List.append_assoc,
      List.append_assoc] at same
    obtain ⟨here, behind⟩ := cutChild_of_toString plain.1 constants.1 blankFree.1 (each.1 number _ _) same
    -- what is left of the first one is the same, and the others are numbered from the same number on
    have next : (readChild depth level first child number).2 = (readChild depth' level first child number).2 := by
      rw [readChild_eq, readChild_eq, here]
    rw [next] at behind
    obtain ⟨later, rests⟩ := ih plain.2 constants.2 blankFree.2 each.2 false _ _ _ behind
    refine ⟨?_, rests⟩
    rw [List.map_cons, cutChildren_cons, cutChildren_cons, later]
    exact congrArg (· :: _) here

/-- **The text of what is read back of a tree** says where the tree was cut, whatever stands behind it. -/
theorem cut_of_toString (tree : CmmlToken) : tree.Plain → tree.VariableFree → BlankFree tree →
    ∀ (level indent number : Nat) (rest rest' : Str), toString indent (readAt depth level tree number).1.toCmml ++ rest =
      toString indent (readAt depth' level tree number).1.toCmml ++ rest' →
        cut headed depth level tree.skeleton = cut headed depth' level tree.skeleton ∧ rest = rest' := by
  induction tree with
  | mk tag attributes text children ih =>
    intro plain free blankFree level indent number rest rest' same
    have here := plain _ (mem_subtrees_self _)
    rw [toCmml_readAt here, toCmml_readAt here, toString_append, toString_append] at same
    -- the tags and the texts are the same
    have inner := List.append_cancel_left (List.cons.inj (List.cons.inj (List.append_cancel_left
      (List.cons.inj (List.append_cancel_left same)).2)).2).2
    rw [skeleton_eq, cut_node, cut_node]
    rw [getChildNodes_mk] at inner ⊢
    cases children with
    | nil =>
      rw [readAll_nil, readAll_nil] at inner
      exact ⟨by rw [List.map_nil, cutChildren_nil, cutChildren_nil], List.append_cancel_left (List.append_cancel_left inner)⟩
    | cons child children =>
      have some : ∀ depth, ¬(readAll depth (level + 1) (headed (.mk tag attributes text (child :: children)))
          (child :: children) number).1.map SchemaTree.toCmml = [] := by
        intro depth empty
        have length := congrArg List.length empty
        rw [List.length_map, length_readAll] at length
        cases length
      rw [if_neg (some depth), if_neg (some depth')] at inner
      simp only [List.cons_append, List.append_assoc] at inner
      obtain ⟨cuts, rests⟩ := cutChildren_of_toString (fun child member => plain.child member)
        (fun child member => free.child member _ (mem_subtrees_self child)) (fun child member => blankFree.child member)
        (fun child member => ih child member (plain.child member) (free.child member) (blankFree.child member) (level + 1) _)
        _ number _ _ (List.cons.inj inner).2
      refine ⟨congrArg _ cuts, ?_⟩
      have closing := (List.cons.inj (List.append_cancel_left rests)).2
      exact (List.cons.inj (List.cons.inj (List.append_cancel_left (List.cons.inj closing).2)).2).2

/-- **The text of a root says which nodes are left.** -/
theorem keptSymbols_eq_of_toString {tree : CmmlToken} (plain : tree.Plain) (free : tree.VariableFree)
    (blankFree : BlankFree tree) (same : (schemaOf depth tree).toCmml.toString 0 = (schemaOf depth' tree).toCmml.toString 0) :
    keptSymbols depth tree = keptSymbols depth' tree := by
  have here := plain tree (mem_subtrees_self tree)
  have blank := blankFree tree (mem_subtrees_self tree)
  have notVar := getTag_ne_qvarTag (free tree (mem_subtrees_self tree))
  have rooted : (schemaOf depth tree).toCmml.toString 0 ++ [] = (schemaOf depth' tree).toCmml.toString 0 ++ [] := by rw [same]
  by_cases zero : depth = 0 <;> by_cases zero' : depth' = 0
  · rw [zero, zero']
  · rw [zero, toCmml_schemaOf_zero, schemaOf_pos zero', toCmml_readAt here, toCmml_qvar] at rooted
    exact absurd rooted (toString_ne (by decide) blank notVar.symm _ _ _ _ _ _ _)
  · rw [zero', toCmml_schemaOf_zero, schemaOf_pos zero, toCmml_readAt here, toCmml_qvar] at rooted
    exact absurd rooted (toString_ne blank (by decide) notVar _ _ _ _ _ _ _)
  · rw [schemaOf_pos zero, schemaOf_pos zero'] at rooted
    rw [keptSymbols, keptSymbols, keptTree_pos zero, keptTree_pos zero',
      (cut_of_toString tree plain free blankFree 0 0 1 [] [] rooted).1]

end Depths

end SchemaEngine

end MathWebSearch
