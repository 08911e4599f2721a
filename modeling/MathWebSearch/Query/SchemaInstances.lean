/-
**Formulae as instances of their schemata.**

A schema is the tree cut at a depth, with variables in place of the subtrees that were dropped. Put back in the place of
the variables, they give the tree.

* `substitute`, `at?`, `qvarNames` — what a schema with variables means.
* `dropped` — the subtrees that are dropped, in pre-order.
* `equals_substitute` — **the tree is an instance** of what is read back of it.
* `qvarNames_readAt` — the variables are numbered in pre-order.
* `readAt_kept`, `readAt_qvar` — what is above the depth is there, and variables stand below it.
-/

import MathWebSearch.Query.SchemaTrees

namespace MathWebSearch

open CmmlToken PartialTree

namespace CmmlToken

/-! ### Trees with variables -/

mutual

/-- The tree with trees in place of its variables. -/
def substitute (assignment : Str → CmmlToken) : CmmlToken → CmmlToken
  | .mk tag attributes text children =>
    if (mk tag attributes text children).isVar = true then assignment (mk tag attributes text children).getVarName
    else .mk tag attributes text (substituteAll assignment children)

/-- Trees one by one. -/
def substituteAll (assignment : Str → CmmlToken) : List CmmlToken → List CmmlToken
  | [] => []
  | child :: rest => substitute assignment child :: substituteAll assignment rest

end

/-- The node at a position, child nodes being counted from zero. -/
def at? : CmmlToken → List Nat → Option CmmlToken
  | token, [] => some token
  | token, number :: rest => token.getChildNodes[number]?.bind fun child => at? child rest

/-- The names of the variables, in pre-order. -/
def qvarNames (token : CmmlToken) : List Str := ((subtrees token).filter isVar).map getVarName

theorem at?_nil (token : CmmlToken) : token.at? [] = some token := by rw [at?]

theorem at?_cons (token : CmmlToken) (place : Nat) (rest : List Nat) :
    token.at? (place :: rest) = token.getChildNodes[place]?.bind fun child => child.at? rest := by rw [at?]

theorem isVar_iff (token : CmmlToken) : token.isVar = true ↔ token.getTag = qvarTag := by
  unfold isVar getType
  split_ifs with qvar range
  · exact ⟨fun _ => qvar, fun _ => rfl⟩
  · exact ⟨fun var => absurd var (by decide), fun same => absurd same qvar⟩
  · exact ⟨fun var => absurd var (by decide), fun same => absurd same qvar⟩

theorem getTag_ne_qvarTag {token : CmmlToken} (constant : token.getType = .constant) : token.getTag ≠ qvarTag := by
  intro qvar
  have isVar : token.isVar = true := (isVar_iff token).mpr qvar
  rw [CmmlToken.isVar, constant] at isVar
  cases isVar

/-- A tag that is printed as it is. -/
structure PlainTag (tag : Str) : Prop where
  unmarked : '#' ∉ tag
  unprefixed : tag.take 2 ≠ ['m', ':']

/-- All tags of a tree are printed as they are. -/
def Plain (token : CmmlToken) : Prop := ∀ inner ∈ subtrees token, PlainTag inner.getTag

theorem Plain.child {token child : CmmlToken} (plain : token.Plain) (member : child ∈ token.getChildNodes) : child.Plain :=
  fun inner inside => plain inner (mem_subtrees_of_child member inside)

theorem qvarNames_eq (token : CmmlToken) :
    qvarNames token = (if token.isVar = true then [token.getVarName] else []) ++ token.getChildNodes.flatMap qvarNames := by
  unfold qvarNames
  rw [subtrees_eq, List.filter_cons]
  split_ifs
  · rw [List.map_cons, List.filter_flatMap, List.map_flatMap, List.singleton_append]
  · rw [List.filter_flatMap, List.map_flatMap, List.nil_append]

/-- A tree without variables equals itself. -/
theorem VariableFree.equals_self {token : CmmlToken} (free : token.VariableFree) : token.equals token = true :=
  (equals_iff free free).mpr rfl

end CmmlToken

namespace SchemaEngine

/-! ### What is read back of a tree -/

section Read

variable (depth level : Nat)

/-- What is read back of a tree whose root is on the level. -/
abbrev readAt (tree : CmmlToken) (number : Nat) : SchemaTree (Str × TextContent) × Nat :=
  numbered (fun inner => contentOf inner.getMeaning) (cut headed depth level tree.skeleton) number

/-- What is read back of child nodes. -/
abbrev readAll (first : Bool) (trees : List CmmlToken) (number : Nat) : List (SchemaTree (Str × TextContent)) × Nat :=
  numberedAll (fun inner => contentOf inner.getMeaning) (cutChildren headed depth level first (trees.map skeleton)) number

/-- What is read back of one child node. -/
def readChild (first : Bool) (child : CmmlToken) (number : Nat) : SchemaTree (Str × TextContent) × Nat :=
  if level < depth ∨ first = true then readAt depth level child number else (.qvar (number % 2 ^ 32), number + 1)

theorem readAt_eq (tree : CmmlToken) (number : Nat) :
    readAt depth level tree number =
      (.token (contentOf tree.getMeaning) (readAll depth (level + 1) (headed tree) tree.getChildNodes number).1,
        (readAll depth (level + 1) (headed tree) tree.getChildNodes number).2) := by
  rw [readAt, skeleton_eq, cut_node, numbered_node]

theorem readAll_nil (first : Bool) (number : Nat) : readAll depth level first [] number = ([], number) := by
  rw [readAll, List.map_nil, cutChildren_nil, numberedAll_nil]

theorem readAll_cons (first : Bool) (child : CmmlToken) (rest : List CmmlToken) (number : Nat) :
    readAll depth level first (child :: rest) number =
      ((readChild depth level first child number).1 ::
          (readAll depth level false rest (readChild depth level first child number).2).1,
        (readAll depth level false rest (readChild depth level first child number).2).2) := by
  rw [readAll, List.map_cons, cutChildren_cons, numberedAll_cons, readChild]
  split_ifs
  · rfl
  · rw [numbered_stub]

mutual

/-- The subtrees that are dropped of a tree, in pre-order. -/
def dropped (level : Nat) : CmmlToken → List CmmlToken
  | .mk tag attributes text children =>
    droppedAll (level + 1) (headed (.mk tag attributes text children)) children

/-- Those that are dropped of child nodes. -/
def droppedAll (level : Nat) (first : Bool) : List CmmlToken → List CmmlToken
  | [] => []
  | child :: rest =>
    (if level < depth ∨ first = true then dropped level child else [child]) ++ droppedAll level false rest

end

theorem dropped_eq (tree : CmmlToken) :
    dropped depth level tree = droppedAll depth (level + 1) (headed tree) tree.getChildNodes := by
  cases tree
  rw [dropped, getChildNodes_mk]

/-- The subtrees that are dropped at one child node. -/
def droppedChild (first : Bool) (child : CmmlToken) : List CmmlToken :=
  if level < depth ∨ first = true then dropped depth level child else [child]

theorem droppedAll_cons (first : Bool) (child : CmmlToken) (rest : List CmmlToken) :
    droppedAll depth level first (child :: rest) =
      droppedChild depth level first child ++ droppedAll depth level false rest := by
  rw [droppedAll, droppedChild]

variable {depth level}

/-! ### Numbers -/

theorem readAll_snd {trees : List CmmlToken}
    (each : ∀ tree ∈ trees, ∀ number, (readAt depth level tree number).2 = number + (dropped depth level tree).length) :
    ∀ (first : Bool) (number : Nat),
      (readAll depth level first trees number).2 = number + (droppedAll depth level first trees).length := by
  induction trees with
  | nil =>
    intro first number
    rw [readAll_nil, droppedAll]
    rfl
  | cons tree rest ih =>
    intro first number
    rw [List.forall_mem_cons] at each
    rw [readAll_cons, droppedAll_cons, List.length_append, ih each.2, readChild, droppedChild]
    split_ifs
    · rw [each.1, Nat.add_assoc]
    · rw [List.length_singleton, Nat.add_assoc]

/-- There are as many variables as subtrees that are dropped. -/
theorem readAt_snd (tree : CmmlToken) : ∀ level number,
    (readAt depth level tree number).2 = number + (dropped depth level tree).length := by
  induction tree with
  | mk tag attributes text children ih =>
    intro level number
    rw [readAt_eq, dropped_eq]
    exact readAll_snd (fun child member => ih child member (level + 1)) _ number

theorem readChild_snd (first : Bool) (child : CmmlToken) (number : Nat) :
    (readChild depth level first child number).2 = number + (droppedChild depth level first child).length := by
  rw [readChild, droppedChild]
  split_ifs
  · exact readAt_snd child level number
  · rfl

end Read

/-! ### Nodes that are printed -/

theorem toCmmlAll_eq (trees : List (SchemaTree (Str × TextContent))) :
    SchemaTree.toCmmlAll trees = trees.map SchemaTree.toCmml := by
  induction trees with
  | nil => rw [SchemaTree.toCmmlAll]; rfl
  | cons tree rest ih => rw [SchemaTree.toCmmlAll, ih, List.map_cons]

/-- The name of the variable with a number. -/
def qvarName (number : Nat) : Str := 'x' :: toStr number

theorem qvarText_val (number : Nat) : (qvarText number).val = qvarName number := by
  show [] ++ List.filter (fun c => !isspace c) ('x' :: toStr number) = 'x' :: toStr number
  rw [List.nil_append, List.filter_eq_self]
  intro c member
  rcases List.mem_cons.mp member with rfl | digit
  · rfl
  · have isDigit : c.isDigit = true := Nat.isDigit_of_mem_toDigits (by decide) (by decide) digit
    have space : isspace c = false := by
      by_contra space
      rw [Bool.not_eq_false] at space
      simp only [isspace, Bool.or_eq_true, decide_eq_true_eq, Char.isDigit, Bool.and_eq_true] at space isDigit
      have low : 48 ≤ c.toNat := isDigit.1
      rcases space with ((((rfl | rfl) | rfl) | rfl) | eleven) | twelve
      · exact absurd low (by decide)
      · exact absurd low (by decide)
      · exact absurd low (by decide)
      · exact absurd low (by decide)
      · omega
      · omega
    rw [space]
    rfl

/-- A variable of a schema. -/
theorem toCmml_qvar (number : Nat) : (SchemaTree.qvar number).toCmml = .mk qvarTag [] (qvarText number) [] := by
  rw [SchemaTree.toCmml]

theorem getVarName_qvar (number : Nat) : (SchemaTree.qvar number).toCmml.getVarName = qvarName number := by
  rw [toCmml_qvar]
  exact qvarText_val number

theorem isVar_qvar (number : Nat) : (SchemaTree.qvar number).toCmml.isVar = true := by
  rw [toCmml_qvar]
  rfl

/-- The text that a node is printed with. -/
def shownText (token : CmmlToken) : TextContent := if token.getTag = mtextTag then .empty else token.getTextContent

theorem contentOf_getMeaning {token : CmmlToken} (plain : PlainTag token.getTag) :
    contentOf token.getMeaning = (token.getTag, shownText token) := by
  have splits := (splitMeaning_getMeaning_iff token).mpr plain.unmarked
  rw [contentOf, decodeMeaning, splits, Option.getD_some, tagOf, if_neg plain.unprefixed, meaningText, shownText]
  split_ifs
  · rfl
  · exact Prod.ext rfl (TextContent.append_empty _)

/-- **A node is printed as it is**: with the same tag and the same meaning. -/
theorem getMeaning_shown (token : CmmlToken) (children : List CmmlToken) :
    (CmmlToken.mk token.getTag [] (shownText token) children).getMeaning = token.getMeaning := by
  unfold CmmlToken.getMeaning shownText
  simp only [getTag_mk, getTextContent_mk]
  split_ifs
  · rfl
  · rfl

theorem getType_shown (token : CmmlToken) (text : TextContent) (children : List CmmlToken) :
    (CmmlToken.mk token.getTag [] text children).getType = token.getType := rfl

variable {depth : Nat}

/-- The tree that is read back, as a `CmmlToken`. -/
theorem toCmml_readAt {tree : CmmlToken} (plain : PlainTag tree.getTag) (level number : Nat) :
    (readAt depth level tree number).1.toCmml = .mk tree.getTag [] (shownText tree)
      ((readAll depth (level + 1) (headed tree) tree.getChildNodes number).1.map SchemaTree.toCmml) := by
  rw [readAt_eq, SchemaTree.toCmml, contentOf_getMeaning plain, toCmmlAll_eq]

theorem isVar_readAt {tree : CmmlToken} (plain : PlainTag tree.getTag) (constant : tree.getType = .constant)
    (level number : Nat) : (readAt depth level tree number).1.toCmml.isVar = false := by
  rw [toCmml_readAt plain, isVar, getType_shown, constant]
  rfl

/-! ### Instances -/

section Instances

variable {assignment : Str → CmmlToken}

theorem substituteAll_eq (trees : List CmmlToken) : substituteAll assignment trees = trees.map (substitute assignment) := by
  induction trees with
  | nil => rw [substituteAll]; rfl
  | cons tree rest ih => rw [substituteAll, ih, List.map_cons]

theorem substitute_var {tree : CmmlToken} (isVar : tree.isVar = true) :
    substitute assignment tree = assignment tree.getVarName := by
  cases tree
  rw [substitute, if_pos isVar]

/-- The variables from a number on stand for subtrees. -/
def Assigns (assignment : Str → CmmlToken) (number : Nat) (trees : List CmmlToken) : Prop :=
  ∀ place tree, trees[place]? = some tree → assignment (qvarName ((number + place) % 2 ^ 32)) = tree

theorem Assigns.front {number : Nat} {trees others : List CmmlToken} (assigns : Assigns assignment number (trees ++ others)) :
    Assigns assignment number trees := fun place tree found =>
  assigns place tree ((List.getElem?_append_left (List.getElem?_eq_some_iff.mp found).1).trans found)

theorem Assigns.back {number : Nat} {trees others : List CmmlToken} (assigns : Assigns assignment number (trees ++ others)) :
    Assigns assignment (number + trees.length) others := by
  intro place tree found
  rw [Nat.add_assoc]
  refine assigns (trees.length + place) tree ?_
  rw [List.getElem?_append_right (Nat.le_add_right _ _), Nat.add_sub_cancel_left]
  exact found

theorem equalsAll_substitute {trees : List CmmlToken} {level : Nat} (free : ∀ tree ∈ trees, tree.VariableFree)
    (each : ∀ tree ∈ trees, ∀ number, Assigns assignment number (dropped depth level tree) →
      (substitute assignment (readAt depth level tree number).1.toCmml).equals tree = true) :
    ∀ (first : Bool) (number : Nat), Assigns assignment number (droppedAll depth level first trees) →
      equalsAll (((readAll depth level first trees number).1.map SchemaTree.toCmml).map (substitute assignment)) trees = true ∧
        (readAll depth level first trees number).1.length = trees.length := by
  induction trees with
  | nil =>
    intro first number _
    rw [readAll_nil]
    exact ⟨rfl, rfl⟩
  | cons tree rest ih =>
    intro first number assigns
    rw [List.forall_mem_cons] at free each
    rw [droppedAll_cons] at assigns
    obtain ⟨later, length⟩ := ih free.2 each.2 false (number + (droppedChild depth level first tree).length) assigns.back
    have here : (substitute assignment (readChild depth level first tree number).1.toCmml).equals tree = true := by
      have assigned := assigns.front
      rw [droppedChild] at assigned
      rw [readChild]
      split_ifs at assigned ⊢
      · exact each.1 number assigned
      · rw [substitute_var (isVar_qvar _), getVarName_qvar]
        have stands := assigned 0 tree rfl
        rw [Nat.add_zero] at stands
        rw [stands]
        exact free.1.equals_self
    rw [readAll_cons, readChild_snd, List.map_cons, List.map_cons, equalsAll, here, later, List.length_cons, length]
    exact ⟨rfl, rfl⟩

/-- **The tree is an instance of what is read back of it**: the subtrees that were dropped stand for the variables. -/
theorem equals_substitute (tree : CmmlToken) : tree.Plain → tree.VariableFree → ∀ level number,
    Assigns assignment number (dropped depth level tree) →
      (substitute assignment (readAt depth level tree number).1.toCmml).equals tree = true := by
  induction tree with
  | mk tag attributes text children ih =>
    intro plain free level number assigns
    have constant := free _ (mem_subtrees_self _)
    have here := plain _ (mem_subtrees_self _)
    rw [dropped_eq] at assigns
    obtain ⟨below, length⟩ := equalsAll_substitute (fun child member => free.child member)
      (fun child member => ih child member (plain.child member) (free.child member) (level + 1)) _ number assigns
    have notVar := @isVar_readAt depth _ here constant level number
    rw [toCmml_readAt here] at notVar ⊢
    rw [substitute, if_neg (by rw [notVar]; exact Bool.false_ne_true), substituteAll_eq,
      equals_eq _ _ ((getType_shown _ _ _).trans constant) constant]
    rw [Bool.and_eq_true, decide_eq_true_iff]
    refine ⟨Prod.ext (getMeaning_shown _ _) ?_, below⟩
    show List.length (List.map _ (List.map _ _)) = children.length
    rw [List.length_map, List.length_map]
    exact length

end Instances

/-! ### The variables and where they stand -/

section Places

theorem qvarNames_qvar (number : Nat) : qvarNames (SchemaTree.qvar number).toCmml = [qvarName number] := by
  rw [qvarNames_eq, if_pos (isVar_qvar number), getVarName_qvar, toCmml_qvar]
  rfl

theorem qvarNames_readAll {trees : List CmmlToken} {level : Nat}
    (each : ∀ tree ∈ trees, ∀ number, qvarNames (readAt depth level tree number).1.toCmml =
      (List.range' number (dropped depth level tree).length).map fun place => qvarName (place % 2 ^ 32)) :
    ∀ (first : Bool) (number : Nat), ((readAll depth level first trees number).1.map SchemaTree.toCmml).flatMap qvarNames =
      (List.range' number (droppedAll depth level first trees).length).map fun place => qvarName (place % 2 ^ 32) := by
  induction trees with
  | nil =>
    intro first number
    rw [readAll_nil, droppedAll]
    rfl
  | cons tree rest ih =>
    intro first number
    rw [List.forall_mem_cons] at each
    have here : qvarNames (readChild depth level first tree number).1.toCmml =
        (List.range' number (droppedChild depth level first tree).length).map fun place => qvarName (place % 2 ^ 32) := by
      rw [readChild, droppedChild]
      split_ifs
      · exact each.1 number
      · exact qvarNames_qvar _
    rw [readAll_cons, readChild_snd, List.map_cons, List.flatMap_cons, here, ih each.2, droppedAll_cons,
      List.length_append, ← List.map_append, List.range'_append_1]

/-- **The variables are numbered in pre-order.** -/
theorem qvarNames_readAt (tree : CmmlToken) : tree.Plain → tree.VariableFree → ∀ level number,
    qvarNames (readAt depth level tree number).1.toCmml =
      (List.range' number (dropped depth level tree).length).map fun place => qvarName (place % 2 ^ 32) := by
  induction tree with
  | mk tag attributes text children ih =>
    intro plain free level number
    have constant := free _ (mem_subtrees_self _)
    have here := plain _ (mem_subtrees_self _)
    rw [qvarNames_eq, if_neg (by rw [isVar_readAt here constant]; exact Bool.false_ne_true), List.nil_append,
      toCmml_readAt here, getChildNodes_mk, dropped_eq]
    exact qvarNames_readAll (fun child member => ih child member (plain.child member) (free.child member) (level + 1)) _ number

theorem getElem?_readAll {level : Nat} {trees : List CmmlToken} : ∀ (first : Bool) (number : Nat) {place : Nat} {tree : CmmlToken},
    trees[place]? = some tree → ∃ number', (readAll depth level first trees number).1[place]? =
      some (readChild depth level (first && decide (place = 0)) tree number').1 := by
  induction trees with
  | nil => intro first number place tree found; cases found
  | cons head rest ih =>
    intro first number place tree found
    rw [readAll_cons]
    cases place with
    | zero =>
      obtain rfl : head = tree := Option.some.inj found
      exact ⟨number, by rw [List.getElem?_cons_zero, decide_eq_true rfl, Bool.and_true]⟩
    | succ place =>
      obtain ⟨number', same⟩ := ih false _ found
      exact ⟨number', by rw [List.getElem?_cons_succ, same, Bool.false_and, decide_eq_false (Nat.succ_ne_zero _), Bool.and_false]⟩

theorem length_readAll {level : Nat} (trees : List CmmlToken) : ∀ (first : Bool) (number : Nat),
    (readAll depth level first trees number).1.length = trees.length := by
  induction trees with
  | nil => intro first number; rw [readAll_nil]; rfl
  | cons tree rest ih => intro first number; rw [readAll_cons, List.length_cons, List.length_cons, ih]

/-- The child nodes of what is read back. -/
theorem getElem?_children_readAt {tree : CmmlToken} (plain : PlainTag tree.getTag) (level number : Nat) {place : Nat}
    {child : CmmlToken} (found : tree.getChildNodes[place]? = some child) :
    ∃ number', (readAt depth level tree number).1.toCmml.getChildNodes[place]? =
      some (readChild depth (level + 1) (headed tree && decide (place = 0)) child number').1.toCmml := by
  obtain ⟨number', same⟩ := @getElem?_readAll depth (level + 1) _ (headed tree) number _ _ found
  exact ⟨number', by rw [toCmml_readAt plain, getChildNodes_mk, List.getElem?_map, same, Option.map_some]⟩

theorem symbol_readAt {tree : CmmlToken} (plain : PlainTag tree.getTag) (level number : Nat) :
    (readAt depth level tree number).1.toCmml.symbol = tree.symbol := by
  rw [toCmml_readAt plain]
  refine Prod.ext (getMeaning_shown _ _) ?_
  show List.length (List.map _ _) = tree.getChildNodes.length
  rw [List.length_map, length_readAll]

/-- **What is above the depth is there.** -/
theorem readAt_kept (tree : CmmlToken) : tree.Plain → tree.VariableFree → ∀ (level number : Nat) {position : List Nat}
    {node : CmmlToken}, tree.at? position = some node → level + position.length < depth ∨ position = [] →
      ∃ node', (readAt depth level tree number).1.toCmml.at? position = some node' ∧ node'.isVar = false ∧
        node'.symbol = node.symbol := by
  induction tree with
  | mk tag attributes text children ih =>
    intro plain free level number position node found above
    have constant := free _ (mem_subtrees_self _)
    have here := plain _ (mem_subtrees_self _)
    cases position with
    | nil =>
      obtain rfl := Option.some.inj found
      exact ⟨_, rfl, isVar_readAt here constant level number, symbol_readAt here level number⟩
    | cons place rest =>
      obtain ⟨child, atPlace, found⟩ := Option.bind_eq_some_iff.mp found
      have member : child ∈ children := List.mem_of_getElem? atPlace
      have deeper : level + 1 + rest.length < depth := by
        have := above.resolve_right (List.cons_ne_nil _ _)
        rw [List.length_cons] at this
        omega
      obtain ⟨number', same⟩ := @getElem?_children_readAt depth _ here level number _ _ atPlace
      rw [readChild, if_pos (.inl (by omega))] at same
      obtain ⟨node', found', rest'⟩ := ih child member (plain.child member) (free.child member) (level + 1) number' found
        (.inl deeper)
      exact ⟨node', by rw [at?, same, Option.bind_some, found'], rest'⟩

theorem headed_eq {tree : CmmlToken} (plain : PlainTag tree.getTag) :
    headed tree = ExpressionEncoder.applyTag.isPrefixOf tree.getTag := by
  rw [headed, meansApply, decodeMeaning, (splitMeaning_getMeaning_iff tree).mpr plain.unmarked, Option.getD_some]

/-- **Variables stand below the depth**, and not as the first child of a node whose tag begins with `apply`. -/
theorem readAt_qvar (tree : CmmlToken) : tree.Plain → tree.VariableFree → ∀ (level number : Nat) {position : List Nat}
    {node : CmmlToken}, (readAt depth level tree number).1.toCmml.at? position = some node → node.isVar = true →
      depth ≤ level + position.length ∧ ∀ front, position = front ++ [0] → ∀ parent,
        (readAt depth level tree number).1.toCmml.at? front = some parent →
          ExpressionEncoder.applyTag.isPrefixOf parent.getTag = false := by
  induction tree with
  | mk tag attributes text children ih =>
    intro plain free level number position node found qvar
    have constant := free _ (mem_subtrees_self _)
    have here := plain _ (mem_subtrees_self _)
    cases position with
    | nil =>
      obtain rfl := Option.some.inj found
      rw [isVar_readAt here constant] at qvar
      cases qvar
    | cons place rest =>
      obtain ⟨shown, atPlace, found⟩ := Option.bind_eq_some_iff.mp found
      have small : place < children.length := by
        have inside := (List.getElem?_eq_some_iff.mp atPlace).1
        rw [toCmml_readAt here, getChildNodes_mk, List.length_map, length_readAll] at inside
        exact inside
      have member : children[place] ∈ children := List.getElem_mem small
      obtain ⟨number', same⟩ := @getElem?_children_readAt depth _ here level number _ _
        (List.getElem?_eq_getElem small)
      rw [atPlace] at same
      obtain rfl := Option.some.inj same
      rw [readChild] at found
      split_ifs at found with keep
      · obtain ⟨deep, notFirst⟩ := ih _ member (plain.child member) (free.child member) (level + 1) number' found qvar
        refine ⟨by rw [List.length_cons]; omega, fun front split parent above => ?_⟩
        cases front with
        | nil =>
          obtain ⟨-, rfl⟩ := List.cons.inj split
          obtain rfl := Option.some.inj found
          rw [isVar_readAt (plain.child member _ (mem_subtrees_self _)) (free.child member _ (mem_subtrees_self _))] at qvar
          cases qvar
        | cons first front =>
          obtain ⟨rfl, behind⟩ := List.cons.inj split
          refine notFirst front behind parent ?_
          rw [at?, atPlace, Option.bind_some, readChild, if_pos keep] at above
          exact above
      · obtain ⟨deep, notFirst⟩ := not_or.mp keep
        cases rest with
        | cons next rest =>
          rw [toCmml_qvar] at found
          cases found
        | nil =>
          refine ⟨by rw [List.length_singleton]; omega, fun front split parent above => ?_⟩
          obtain ⟨rfl, zero⟩ := List.append_inj' (show [] ++ [place] = front ++ [0] from split) rfl
          obtain rfl : place = 0 := List.singleton_inj.mp zero
          obtain rfl := Option.some.inj above
          rw [decide_eq_true rfl, Bool.and_true, Bool.not_eq_true, headed_eq here] at notFirst
          rw [toCmml_readAt here, getTag_mk]
          exact notFirst

end Places

end SchemaEngine

end MathWebSearch
