/-
**ContentMathML tokens** (`mws/types/CmmlToken.{hpp,cpp}`).

A `CmmlToken` is a node of an expression tree with a tag, attributes and a text without white space
(`appendTextContent` drops it). Where the source follows a parent pointer or reads the xpath it stored
in a node, the model uses a `Located` token: the token with its parent and its position.

* `foreachSubexpression` — the traversal with an explicit stack; `dfs_eq` says that it visits the
  tokens in pre-order.
* `symbols` — the meanings of a tree with their numbers of children, in pre-order, which is a complete
  prefix code (`closes_symbols`).
* `equals_iff` — two trees without variables are `equals` exactly when their symbols are the same.
* `splitMeaning_getMeaning_iff` — a meaning comes apart into the tag and the text unless the tag has a `#`.

`std::string` is a list of characters, one for each byte; `double` is a parameter (`Doubles`), since
only its comparison and `std::stod` matter here.
-/

import MathWebSearch.Library.PrefixCode

namespace MathWebSearch

open PrefixCode

/-- `std::string`. -/
abbrev Str := List Char

/-- `std::to_string` of an unsigned number. -/
def toStr (number : Nat) : Str := Nat.toDigits 10 number

/-- What the code uses of `double`: `std::stod` (`none` when it throws), `<=` and the two limits. -/
structure Doubles where
  Carrier : Type
  stod : Str → Option Carrier
  le : Carrier → Carrier → Bool
  min : Carrier
  max : Carrier

/-- The whole numbers among the doubles, read from their digits: enough to run examples. -/
def Doubles.whole : Doubles where
  Carrier := Nat
  stod text :=
    if text ≠ [] ∧ text.all Char.isDigit then
      some (text.foldl (fun value c => 10 * value + (c.toNat - '0'.toNat)) 0)
    else none
  le first second := first ≤ second
  min := 0
  max := 10 ^ 308

/-- `isspace` in the C locale. -/
def isspace (c : Char) : Bool :=
  c = ' ' || c = '\t' || c = '\n' || c = '\r' || c.toNat = 11 || c.toNat = 12

/-- A text as `appendTextContent` leaves it: without white space. -/
def TextContent := { text : Str // ∀ c ∈ text, isspace c = false }

instance : DecidableEq TextContent := inferInstanceAs (DecidableEq (Subtype _))

theorem isspace_of_all {text : Str} (black : (text.all fun c => !isspace c) = true) :
    ∀ c ∈ text, isspace c = false := by
  intro c member
  simpa using List.all_eq_true.mp black c member

/-- `appendTextContent`. -/
def TextContent.append (content : TextContent) (text : Str) : TextContent where
  val := content.val ++ text.filter fun c => !isspace c
  property := by
    intro c member
    rcases List.mem_append.mp member with old | new
    · exact content.property c old
    · simpa using (List.mem_filter.mp new).2

/-- No text. -/
def TextContent.empty : TextContent := ⟨[], fun _ member => nomatch member⟩

/-- Appending a text without white space to nothing. -/
theorem TextContent.append_empty (content : TextContent) : empty.append content.val = content := by
  refine Subtype.ext ?_
  show [] ++ content.val.filter _ = content.val
  rw [List.nil_append]
  exact List.filter_eq_self.mpr fun c member => by rw [content.property c member]; rfl

/-- A token: tag, attributes, text and child nodes. -/
inductive CmmlToken where
  | mk (tag : Str) (attributes : List (Str × Str)) (text : TextContent) (children : List CmmlToken)

namespace CmmlToken

def qvarTag : Str := ['m', 'w', 's', ':', 'q', 'v', 'a', 'r']
def varNameAttr : Str := ['n', 'a', 'm', 'e']
def rangeTag : Str := ['m', 'w', 's', ':', 'r', 'a', 'n', 'g', 'e']
def rangeLowAttr : Str := ['l', 'o', 'w']
def rangeHighAttr : Str := ['h', 'i', 'g', 'h']
def mtextTag : Str := ['m', 't', 'e', 'x', 't']

/-- The three kinds of tokens. -/
inductive TokenType where
  | var
  | range
  | constant
deriving DecidableEq

def getTag : CmmlToken → Str
  | mk tag _ _ _ => tag

def attributes : CmmlToken → List (Str × Str)
  | mk _ attributes _ _ => attributes

def getTextContent : CmmlToken → TextContent
  | mk _ _ text _ => text

def getChildNodes : CmmlToken → List CmmlToken
  | mk _ _ _ children => children

@[simp] theorem getTag_mk (tag : Str) (attributes : List (Str × Str)) (text : TextContent)
    (children : List CmmlToken) : (mk tag attributes text children).getTag = tag := rfl

@[simp] theorem getTextContent_mk (tag : Str) (attributes : List (Str × Str)) (text : TextContent)
    (children : List CmmlToken) : (mk tag attributes text children).getTextContent = text := rfl

@[simp] theorem getChildNodes_mk (tag : Str) (attributes : List (Str × Str)) (text : TextContent)
    (children : List CmmlToken) : (mk tag attributes text children).getChildNodes = children := rfl

/-- Induction over the tree: a token after all of its children. -/
@[induction_eliminator]
theorem induction {motive : CmmlToken → Prop}
    (mk : ∀ tag attributes text children, (∀ child ∈ children, motive child) →
      motive (mk tag attributes text children)) (token : CmmlToken) : motive token :=
  @CmmlToken.rec motive (fun children => ∀ child ∈ children, motive child) mk
    (fun _ member => nomatch member)
    (fun head rest ihHead ihRest child member => by
      rcases List.mem_cons.mp member with rfl | member
      · exact ihHead
      · exact ihRest child member) token

/-- `setTag`: a leading `m:` is dropped. -/
def tagOf (tag : Str) : Str := if tag.take 2 = ['m', ':'] then tag.drop 2 else tag

def getType (token : CmmlToken) : TokenType :=
  if token.getTag = qvarTag then .var else if token.getTag = rangeTag then .range else .constant

def isVar (token : CmmlToken) : Bool := token.getType = .var

def isRange (token : CmmlToken) : Bool := token.getType = .range

/-- `getVarName`: the attribute `name`, or the text when there is none. -/
def getVarName (token : CmmlToken) : Str :=
  (token.attributes.lookup varNameAttr).getD token.getTextContent.val

/-- `getRangeBounds`; a missing or unreadable bound is a limit of `double`. -/
def getRangeBounds (D : Doubles) (token : CmmlToken) : D.Carrier × D.Carrier :=
  (((token.attributes.lookup rangeLowAttr).bind D.stod).getD D.min,
    ((token.attributes.lookup rangeHighAttr).bind D.stod).getD D.max)

/-- `getMeaning`; the content of an `mtext` is discarded. -/
def getMeaning (token : CmmlToken) : Str :=
  if token.getTag = mtextTag then mtextTag ++ ['#']
  else token.getTag ++ '#' :: token.getTextContent.val

/-- `getArity`: the number of child nodes as a `uint32_t`. -/
def getArity (token : CmmlToken) : Nat := token.getChildNodes.length % 2 ^ 32

mutual

/-- `getExprDepth`, a `uint32_t`. -/
def getExprDepth : CmmlToken → Nat
  | mk _ _ _ children => childrenDepth children 0

/-- The loop of `getExprDepth` over the child nodes. -/
def childrenDepth : List CmmlToken → Nat → Nat
  | [], maxDepth => maxDepth
  | child :: rest, maxDepth =>
    childrenDepth rest (if maxDepth < (getExprDepth child + 1) % 2 ^ 32
      then (getExprDepth child + 1) % 2 ^ 32 else maxDepth)

end

mutual

/-- `equals`: variables by name, constants by meaning and children, ranges never. -/
def equals : CmmlToken → CmmlToken → Bool
  | mk tag attributes text children, other =>
    let self := mk tag attributes text children
    if self.getType = other.getType then
      match self.getType with
      | .var => self.getVarName = other.getVarName
      | .constant =>
        self.getMeaning = other.getMeaning && children.length = other.getChildNodes.length &&
          equalsAll children other.getChildNodes
      | .range => false
    else false

/-- The loop of `equals` over the child nodes of both tokens. -/
def equalsAll : List CmmlToken → List CmmlToken → Bool
  | [], _ => true
  | child :: rest, others =>
    match others with
    | [] => true
    | other :: others => equals child other && equalsAll rest others

end

/-! ### Located tokens and the traversal -/

/-- A token where it stands: its parent, and the numbers of the child nodes that lead to it, the last
one first. -/
structure Located where
  token : CmmlToken
  parent : Option CmmlToken
  position : List Nat

namespace Located

/-- The root of an expression. -/
def root (token : CmmlToken) : Located := ⟨token, none, []⟩

/-- The child nodes of a token at a position, from the `number`-th on. -/
def childNodesFrom (parent : CmmlToken) (position : List Nat) : List CmmlToken → Nat → List Located
  | [], _ => []
  | child :: rest, number =>
    ⟨child, some parent, number :: position⟩ :: childNodesFrom parent position rest (number + 1)

/-- The child nodes. -/
def childNodes (self : Located) : List Located :=
  childNodesFrom self.token self.position self.token.getChildNodes 1

/-- `getXpath`, as `newChildNode` builds it from the parent's. -/
def getXpath (self : Located) : Str :=
  ['/', '*', '[', '1', ']'] ++
    self.position.reverse.flatMap fun number => ['/', '*', '['] ++ toStr number ++ [']']

/-- `getXpathRelative`: without the selector of the root. -/
def getXpathRelative (self : Located) : Str := self.getXpath.drop 5

end Located

mutual

/-- The number of tokens of a tree. -/
def size : CmmlToken → Nat
  | mk _ _ _ children => sizeAll children + 1

/-- The number of tokens of a list of trees. -/
def sizeAll : List CmmlToken → Nat
  | [] => 0
  | child :: rest => size child + sizeAll rest

end

theorem sum_size_childNodesFrom (parent : CmmlToken) (position : List Nat)
    (children : List CmmlToken) (number : Nat) :
    ((Located.childNodesFrom parent position children number).map fun child => child.token.size).sum =
      sizeAll children := by
  induction children generalizing number with
  | nil => rfl
  | cons child rest ih => rw [Located.childNodesFrom, List.map_cons, List.sum_cons, ih, sizeAll]

theorem map_token_childNodesFrom (parent : CmmlToken) (position : List Nat) (children : List CmmlToken)
    (number : Nat) : (Located.childNodesFrom parent position children number).map Located.token = children := by
  induction children generalizing number with
  | nil => rfl
  | cons child rest ih => rw [Located.childNodesFrom, List.map_cons, ih]

/-- The child nodes, without where they stand. -/
theorem map_token_childNodes (located : Located) :
    located.childNodes.map Located.token = located.token.getChildNodes :=
  map_token_childNodesFrom _ _ _ _

theorem size_eq (token : CmmlToken) : token.size = sizeAll token.getChildNodes + 1 := by
  cases token
  rw [size, getChildNodes_mk]

/-- The loop with the stack: the top token is visited, then its child nodes take its place. -/
def dfs : List Located → List Located
  | [] => []
  | top :: rest => top :: dfs (top.childNodes ++ rest)
termination_by stack => (stack.map fun located => located.token.size).sum
decreasing_by
  rw [List.map_append, List.sum_append, Located.childNodes, sum_size_childNodesFrom, List.map_cons,
    List.sum_cons, size_eq top.token]
  omega

/-- `foreachSubexpression`: the tokens in the order in which the callback sees them. -/
def foreachSubexpression (expression : CmmlToken) : List Located := dfs [.root expression]

mutual

/-- The tokens of a tree in pre-order, where they stand. -/
def preorder : CmmlToken → Option CmmlToken → List Nat → List Located
  | mk tag attributes text children, parent, position =>
    ⟨mk tag attributes text children, parent, position⟩ ::
      preorderOf children (mk tag attributes text children) position 1

/-- The tokens of the child nodes from the `number`-th on. -/
def preorderOf : List CmmlToken → CmmlToken → List Nat → Nat → List Located
  | [], _, _, _ => []
  | child :: rest, parent, position, number =>
    preorder child (some parent) (number :: position) ++ preorderOf rest parent position (number + 1)

end

theorem preorderOf_eq (children : List CmmlToken) (parent : CmmlToken) (position : List Nat)
    (number : Nat) :
    preorderOf children parent position number =
      (Located.childNodesFrom parent position children number).flatMap fun child =>
        preorder child.token child.parent child.position := by
  induction children generalizing number with
  | nil => rfl
  | cons child rest ih => rw [preorderOf, Located.childNodesFrom, List.flatMap_cons, ih]

theorem preorder_eq (located : Located) :
    preorder located.token located.parent located.position =
      located :: located.childNodes.flatMap fun child =>
        preorder child.token child.parent child.position := by
  obtain ⟨token, parent, position⟩ := located
  cases token
  rw [preorder, preorderOf_eq]
  rfl

/-- **The traversal visits the trees on its stack one after the other, each in pre-order.** -/
theorem dfs_eq (stack : List Located) :
    dfs stack = stack.flatMap fun located =>
      preorder located.token located.parent located.position := by
  fun_induction dfs stack with
  | case1 => rfl
  | case2 top rest ih =>
    rw [ih, List.flatMap_append, List.flatMap_cons, preorder_eq top, List.cons_append]

theorem foreachSubexpression_eq (expression : CmmlToken) :
    foreachSubexpression expression = preorder expression none [] := by
  rw [foreachSubexpression, dfs_eq, List.flatMap_singleton]
  rfl

/-! ### The subtrees and the symbols of a tree -/

/-- The subtrees of a tree, in pre-order. -/
def subtrees (token : CmmlToken) : List CmmlToken := (preorder token none []).map Located.token

/-- Which subtrees there are does not depend on where the tree stands. -/
theorem map_token_preorder (token : CmmlToken) : ∀ (parent : Option CmmlToken) (position : List Nat),
    (preorder token parent position).map Located.token =
      token :: token.getChildNodes.flatMap subtrees := by
  induction token with
  | mk tag attributes text children ih =>
    intro parent position
    have below : ∀ (self : CmmlToken) (number : Nat),
        (preorderOf children self position number).map Located.token = children.flatMap subtrees := by
      intro self
      induction children with
      | nil => intro number; rfl
      | cons child rest ihRest =>
        intro number
        have here := ih child List.mem_cons_self
        rw [preorderOf, List.map_append, List.flatMap_cons, here, subtrees, here,
          ihRest fun other member => ih other (List.mem_cons_of_mem _ member)]
    rw [preorder, List.map_cons, below, getChildNodes_mk]

theorem map_token_preorder_eq_subtrees (token : CmmlToken) (parent : Option CmmlToken)
    (position : List Nat) : (preorder token parent position).map Located.token = subtrees token := by
  rw [subtrees, map_token_preorder, map_token_preorder]

theorem subtrees_eq (token : CmmlToken) :
    subtrees token = token :: token.getChildNodes.flatMap subtrees := map_token_preorder token _ _

theorem mem_subtrees_self (token : CmmlToken) : token ∈ subtrees token := by
  rw [subtrees_eq]
  exact List.mem_cons_self

theorem mem_subtrees_of_child {token child inner : CmmlToken} (member : child ∈ token.getChildNodes)
    (inside : inner ∈ subtrees child) : inner ∈ subtrees token := by
  rw [subtrees_eq]
  exact List.mem_cons_of_mem _ (List.mem_flatMap.mpr ⟨child, member, inside⟩)

/-- A subtree of a subtree is a subtree. -/
theorem subtrees_trans {token : CmmlToken} : ∀ {middle inner : CmmlToken}, middle ∈ subtrees token →
    inner ∈ subtrees middle → inner ∈ subtrees token := by
  induction token with
  | mk tag attributes text children ih =>
    intro middle inner outside inside
    rw [subtrees_eq, List.mem_cons] at outside
    rcases outside with rfl | outside
    · exact inside
    · obtain ⟨child, member, outside⟩ := List.mem_flatMap.mp outside
      exact mem_subtrees_of_child member (ih child member outside inside)

/-- Every token of the tree is a constant. -/
def VariableFree (token : CmmlToken) : Prop := ∀ inner ∈ subtrees token, inner.getType = .constant

theorem VariableFree.child {token child : CmmlToken} (variableFree : token.VariableFree)
    (member : child ∈ token.getChildNodes) : child.VariableFree :=
  fun inner inside => variableFree inner (mem_subtrees_of_child member inside)

/-- The symbol of a token: its meaning and the number of its child nodes. -/
def symbol (token : CmmlToken) : Str × Nat := (token.getMeaning, token.getChildNodes.length)

/-- The symbols of a tree, in pre-order. -/
def symbols (token : CmmlToken) : List (Str × Nat) := (subtrees token).map symbol

theorem symbols_eq (token : CmmlToken) :
    symbols token = token.symbol :: token.getChildNodes.flatMap symbols := by
  rw [symbols, subtrees_eq, List.map_cons, List.map_flatMap]
  rfl

/-- Trees one after the other close as many subterms as they are. -/
theorem closes_flatMap {α β : Type} {ar : β → Nat} {f : α → List β} {items : List α}
    (each : ∀ item ∈ items, Closes ar 1 (f item)) : Closes ar items.length (items.flatMap f) := by
  induction items with
  | nil => trivial
  | cons item rest ih =>
    rw [List.length_cons, Nat.add_comm, List.flatMap_cons]
    exact (each item List.mem_cons_self).append
      (ih fun other member => each other (List.mem_cons_of_mem _ member))

/-- **The symbols of a tree are a complete prefix code.** -/
theorem closes_symbols (token : CmmlToken) : Closes Prod.snd 1 (symbols token) := by
  induction token with
  | mk tag attributes text children ih =>
    rw [symbols_eq, closes_cons, Nat.zero_add]
    exact closes_flatMap ih

theorem equals_eq (token other : CmmlToken) (constant : token.getType = .constant)
    (constant' : other.getType = .constant) :
    token.equals other = (decide (token.symbol = other.symbol) &&
      equalsAll token.getChildNodes other.getChildNodes) := by
  cases token with
  | mk tag attributes text children =>
    rw [equals]
    simp only [constant, constant', symbol, Prod.mk.injEq, getChildNodes_mk]
    simp

/-- **Equality of trees without variables is equality of their symbols.** -/
theorem equals_iff {token : CmmlToken} : ∀ {other : CmmlToken}, token.VariableFree →
    other.VariableFree → (token.equals other = true ↔ symbols token = symbols other) := by
  induction token with
  | mk tag attributes text children ih =>
    intro other variableFree variableFree'
    rw [equals_eq _ _ (variableFree _ (mem_subtrees_self _)) (variableFree' _ (mem_subtrees_self _)),
      symbols_eq, symbols_eq other, List.cons.injEq, Bool.and_eq_true, decide_eq_true_iff]
    refine and_congr_right fun sameSymbol => ?_
    have lengths : children.length = other.getChildNodes.length := congrArg Prod.snd sameSymbol
    have free : ∀ child ∈ children, child.VariableFree := fun child member => variableFree.child member
    have free' : ∀ child ∈ other.getChildNodes, child.VariableFree :=
      fun child member => variableFree'.child member
    rw [getChildNodes_mk]
    clear variableFree variableFree' sameSymbol
    -- the two lists of child nodes go in step; the front tree of each can be read off in one way only
    generalize other.getChildNodes = others at lengths free'
    induction children generalizing others with
    | nil =>
      obtain rfl := List.eq_nil_of_length_eq_zero lengths.symm
      simp [equalsAll]
    | cons child rest ihRest =>
      cases others with
      | nil => cases lengths
      | cons other others =>
        have front : child.equals other = true ↔ symbols child = symbols other :=
          ih child List.mem_cons_self (free child List.mem_cons_self) (free' other List.mem_cons_self)
        have back : equalsAll rest others = true ↔ rest.flatMap symbols = others.flatMap symbols :=
          ihRest (fun child member => ih child (List.mem_cons_of_mem _ member))
            (fun child member => free child (List.mem_cons_of_mem _ member)) others
            (Nat.succ.inj lengths) (fun child member => free' child (List.mem_cons_of_mem _ member))
        rw [equalsAll, Bool.and_eq_true, List.flatMap_cons, List.flatMap_cons, front, back]
        constructor
        · rintro ⟨same, sameRest⟩
          rw [same, sameRest]
        · exact (closes_symbols child).cancel (closes_symbols other)

/-! ### The same tree -/

mutual

/-- The same tree: equal tags, equal texts except that the text of an `mtext` does not matter, and the same child
nodes. -/
def SameTree : CmmlToken → CmmlToken → Prop
  | mk tag _ text children, other =>
    tag = other.getTag ∧ (tag ≠ mtextTag → text = other.getTextContent) ∧ SameTrees children other.getChildNodes

/-- The same trees one by one. -/
def SameTrees : List CmmlToken → List CmmlToken → Prop
  | [], others => others = []
  | child :: rest, others =>
    match others with
    | [] => False
    | other :: others => SameTree child other ∧ SameTrees rest others

end

/-- What stands in front of the first mark and what stands behind it. -/
theorem split_mark {mark : Char} {tag : Str} : ∀ {tag' text text' : Str}, mark ∉ tag → mark ∉ tag' →
    tag ++ mark :: text = tag' ++ mark :: text' → tag = tag' ∧ text = text' := by
  induction tag with
  | nil =>
    intro tag' text text' _ absent' same
    cases tag' with
    | nil => exact ⟨rfl, (List.cons.inj same).2⟩
    | cons char rest => exact absurd ((List.cons.inj same).1 ▸ List.mem_cons_self) absent'
  | cons char rest ih =>
    intro tag' text text' absent absent' same
    cases tag' with
    | nil => exact absurd ((List.cons.inj same).1 ▸ List.mem_cons_self) absent
    | cons char' rest' =>
      obtain ⟨rfl, behind⟩ := List.cons.inj same
      obtain ⟨rfl, rfl⟩ := ih (fun member => absent (List.mem_cons_of_mem _ member))
        (fun member => absent' (List.mem_cons_of_mem _ member)) behind
      exact ⟨rfl, rfl⟩

/-- `find('#')` with the two `substr`: what stands in front of the first `#` and what stands behind it. -/
def splitMeaning (meaning : Str) : Option (Str × Str) :=
  if '#' ∈ meaning then some (meaning.takeWhile (· ≠ '#'), (meaning.dropWhile (· ≠ '#')).tail) else none

/-- **Splitting at the first `#`.** -/
theorem splitMeaning_eq_some_iff {meaning tag text : Str} :
    splitMeaning meaning = some (tag, text) ↔ meaning = tag ++ '#' :: text ∧ '#' ∉ tag := by
  unfold splitMeaning
  constructor
  · intro splits
    split at splits
    · obtain ⟨rfl, rfl⟩ := Prod.mk.inj (Option.some.inj splits)
      have found : meaning.dropWhile (· ≠ '#') ≠ [] := by
        intro none
        have all := List.dropWhile_eq_nil_iff.mp none '#' ‹_›
        simp at all
      refine ⟨?_, fun member => by simpa using List.mem_takeWhile_imp member⟩
      obtain ⟨head, rest, drops⟩ := List.exists_cons_of_ne_nil found
      have first : head = '#' := by
        have stops := List.head_dropWhile_not _ found
        simp only [drops, List.head_cons] at stops
        simpa using stops
      conv_lhs => rw [← List.takeWhile_append_dropWhile (p := (· ≠ '#')) (l := meaning), drops, first]
      rw [drops, List.tail_cons]
    · cases splits
  · rintro ⟨rfl, plain⟩
    have others : ∀ char ∈ tag, decide (char ≠ '#') = true := by
      intro char member
      rw [decide_eq_true_iff]
      rintro rfl
      exact plain member
    rw [if_pos (by simp), List.takeWhile_append_of_pos others, List.dropWhile_append_of_pos others]
    simp

/-- The text that a meaning has: that of the token, and none for an `mtext`. -/
def meaningText (token : CmmlToken) : Str := if token.getTag = mtextTag then [] else token.getTextContent.val

theorem getMeaning_split (token : CmmlToken) : token.getMeaning = token.getTag ++ '#' :: token.meaningText := by
  rw [getMeaning, meaningText]
  split_ifs with isMtext
  · rw [isMtext]
  · rfl

/-- A meaning comes apart into the tag and the text unless the tag has a `#`. -/
theorem splitMeaning_getMeaning_iff (token : CmmlToken) :
    splitMeaning token.getMeaning = some (token.getTag, token.meaningText) ↔ '#' ∉ token.getTag := by
  rw [splitMeaning_eq_some_iff, getMeaning_split]
  exact ⟨fun both => both.2, fun plain => ⟨rfl, plain⟩⟩

/-- Without `#` in the tag, a meaning says what the tag and the text are. -/
theorem getMeaning_eq_iff {token other : CmmlToken} (plain : '#' ∉ token.getTag) (plain' : '#' ∉ other.getTag) :
    token.getMeaning = other.getMeaning ↔ token.getTag = other.getTag ∧
      (token.getTag ≠ mtextTag → token.getTextContent = other.getTextContent) := by
  rw [getMeaning_split token, getMeaning_split other, meaningText, meaningText]
  constructor
  · intro same
    obtain ⟨tags, texts⟩ := split_mark plain plain' same
    refine ⟨tags, fun notMtext => Subtype.ext ?_⟩
    rwa [if_neg notMtext, if_neg (tags ▸ notMtext)] at texts
  · rintro ⟨tags, texts⟩
    rw [tags]
    split_ifs with isMtext
    · rfl
    · rw [texts (by rw [tags]; exact isMtext)]

/-- **Without `#` in the tags, `equals` is equality of the trees**, for trees without variables. -/
theorem equals_iff_sameTree {token : CmmlToken} : ∀ {other : CmmlToken}, token.VariableFree → other.VariableFree →
    (∀ inner ∈ subtrees token, '#' ∉ inner.getTag) → (∀ inner ∈ subtrees other, '#' ∉ inner.getTag) →
    (token.equals other = true ↔ token.SameTree other) := by
  induction token with
  | mk tag attributes text children ih =>
    intro other free free' plain plain'
    rw [equals_eq _ _ (free _ (mem_subtrees_self _)) (free' _ (mem_subtrees_self _)), SameTree, Bool.and_eq_true,
      decide_eq_true_iff, symbol, symbol, Prod.mk.injEq,
      getMeaning_eq_iff (plain _ (mem_subtrees_self _)) (plain' _ (mem_subtrees_self _)), getTag_mk,
      getTextContent_mk, getChildNodes_mk, and_assoc, and_assoc]
    refine and_congr_right fun _ => and_congr_right fun _ => ?_
    have below : ∀ child ∈ children, child.VariableFree ∧ ∀ inner ∈ subtrees child, '#' ∉ inner.getTag :=
      fun child member => ⟨free.child member, fun inner inside => plain inner (mem_subtrees_of_child member inside)⟩
    have below' : ∀ child ∈ other.getChildNodes, child.VariableFree ∧ ∀ inner ∈ subtrees child, '#' ∉ inner.getTag :=
      fun child member => ⟨free'.child member, fun inner inside => plain' inner (mem_subtrees_of_child member inside)⟩
    clear free free' plain plain'
    generalize other.getChildNodes = others at below'
    induction children generalizing others with
    | nil => cases others <;> simp [equalsAll, SameTrees]
    | cons child rest ihRest =>
      cases others with
      | nil => simp [SameTrees]
      | cons other others =>
        have front := ih child List.mem_cons_self (below child List.mem_cons_self).1
          (below' other List.mem_cons_self).1 (below child List.mem_cons_self).2 (below' other List.mem_cons_self).2
        have back : (rest.length = others.length ∧ equalsAll rest others = true) ↔ SameTrees rest others :=
          ihRest (fun child member => ih child (List.mem_cons_of_mem _ member))
          (fun child member => below child (List.mem_cons_of_mem _ member)) others
          (fun child member => below' child (List.mem_cons_of_mem _ member))
        rw [equalsAll, SameTrees, Bool.and_eq_true, List.length_cons, List.length_cons, Nat.add_right_cancel_iff,
          and_left_comm, front, back]

end CmmlToken

end MathWebSearch
