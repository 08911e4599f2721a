/-
**The token cursor of the XML readers** (`currentToken` in `mws/xmlparser/processMwsHarvest.cpp` and
`readMwsQuery.cpp`, with `newChildNode`, `setTag`, `addAttribute` and `appendTextContent` of `mws/types/CmmlToken.cpp`).

Both readers build a tree of tokens from the events of an expression: a start tag opens a token below the current one,
its end tag goes back to the parent. The cursor is the list of open tokens, the current one first and the root last;
the null pointer is the empty list.

* `tree`, `trees` — the tokens that elements stand for, read off the document.
* `absorb` — an open token with a forest read into it.
* `foldlM_open` — a reader that works on its cursor as the source does reads a forest into the current token.
-/

import MathWebSearch.Library.EventStream
import MathWebSearch.Types.CmmlToken

namespace MathWebSearch

open EventStream

/-- Nodes and events over the characters of `std::string`. -/
abbrev XmlNode := Node Char
abbrev XmlEvent := Event Char

/-! ### What the document says -/

/-- `addAttribute`: `insert` leaves a value that is already there. -/
def addAttribute (attributes : List (Str × Str)) (entry : Str × Str) : List (Str × Str) :=
  if (attributes.lookup entry.1).isSome then attributes else attributes ++ [entry]

/-- The attributes of a token, added one after the other. -/
def attributesOf (attrs : List (Str × Str)) : List (Str × Str) := attrs.foldl addAttribute []

/-- The texts that stand directly in a forest. -/
def directText : List XmlNode → Str
  | [] => []
  | .text content :: rest => content ++ directText rest
  | .element _ _ _ :: rest => directText rest
  | .error :: rest => directText rest

mutual

/-- The token of an element; a text or an error has none. -/
def tokens : XmlNode → List CmmlToken
  | .element name attrs children =>
    [.mk (CmmlToken.tagOf name) (attributesOf attrs) (TextContent.empty.append (directText children)) (trees children)]
  | .text _ => []
  | .error => []

/-- The tokens of the elements of a forest. -/
def trees : List XmlNode → List CmmlToken
  | [] => []
  | node :: rest => tokens node ++ trees rest

end

/-- **The token an element stands for**: its tag without a leading `m:`, its attributes, the text without white space
that stands directly in it, and the tokens of its element children. -/
def tree (name : Str) (attrs : List (Str × Str)) (children : List XmlNode) : CmmlToken :=
  .mk (CmmlToken.tagOf name) (attributesOf attrs) (TextContent.empty.append (directText children)) (trees children)

@[simp] theorem trees_element (name : Str) (attrs : List (Str × Str)) (children rest : List XmlNode) :
    trees (.element name attrs children :: rest) = tree name attrs children :: trees rest := by
  rw [trees, tokens, tree, List.singleton_append]

@[simp] theorem trees_text (content : Str) (rest : List XmlNode) : trees (.text content :: rest) = trees rest := by
  rw [trees, tokens, List.nil_append]

@[simp] theorem trees_error (rest : List XmlNode) : trees (.error :: rest) = trees rest := by
  rw [trees, tokens, List.nil_append]

/-! ### The cursor -/

/-- A token whose end tag is still to come. -/
structure OpenToken where
  tag : Str
  attributes : List (Str × Str)
  text : TextContent
  children : List CmmlToken

/-- The open tokens, the current one first. -/
abbrev Cursor := List OpenToken

namespace OpenToken

/-- A new token with its tag and attributes. -/
def new (name : Str) (attrs : List (Str × Str)) : OpenToken :=
  ⟨CmmlToken.tagOf name, attributesOf attrs, .empty, []⟩

def close (token : OpenToken) : CmmlToken := .mk token.tag token.attributes token.text token.children

def appendTextContent (token : OpenToken) (chunk : Str) : OpenToken := { token with text := token.text.append chunk }

/-- A child node whose end tag has come. -/
def attach (token : OpenToken) (child : CmmlToken) : OpenToken := { token with children := token.children ++ [child] }

/-- The token with a forest read into it. -/
def absorb (token : OpenToken) (forest : List XmlNode) : OpenToken :=
  { token with text := token.text.append (directText forest), children := token.children ++ trees forest }

theorem close_absorb_new (name : Str) (attrs : List (Str × Str)) (children : List XmlNode) :
    ((new name attrs).absorb children).close = tree name attrs children := rfl

end OpenToken

theorem TextContent.append_append (content : TextContent) (first second : Str) :
    (content.append first).append second = content.append (first ++ second) := by
  refine Subtype.ext ?_
  show (content.val ++ first.filter _) ++ second.filter _ = content.val ++ (first ++ second).filter _
  rw [List.filter_append, List.append_assoc]

theorem TextContent.append_nil (content : TextContent) : content.append [] = content :=
  Subtype.ext (List.append_nil content.val)

namespace OpenToken

theorem absorb_nil (token : OpenToken) : token.absorb [] = token := by
  unfold absorb
  rw [directText, trees, TextContent.append_nil, List.append_nil]

theorem absorb_element (token : OpenToken) (name : Str) (attrs : List (Str × Str)) (children rest : List XmlNode) :
    token.absorb (.element name attrs children :: rest) = (token.attach (tree name attrs children)).absorb rest := by
  unfold absorb attach
  rw [directText, trees_element, List.append_assoc, List.singleton_append]

theorem absorb_text (token : OpenToken) (content : Str) (rest : List XmlNode) :
    token.absorb (.text content :: rest) = (token.appendTextContent content).absorb rest := by
  unfold absorb appendTextContent
  rw [directText, trees_text, TextContent.append_append]

theorem appendTextContent_appendTextContent (token : OpenToken) (first second : Str) :
    (token.appendTextContent first).appendTextContent second = token.appendTextContent (first ++ second) := by
  unfold appendTextContent
  rw [TextContent.append_append]

end OpenToken

/-- What a reader does while a token is open; `reading` is its state with a cursor. -/
structure ReadsTokens {State : Type} (step : State → XmlEvent → Option State) (reading : Cursor → State) : Prop where
  opens : ∀ (token : OpenToken) (rest : Cursor) (name : Str) (attrs : List (Str × Str)),
    step (reading (token :: rest)) (.startElement name attrs) = some (reading (.new name attrs :: token :: rest))
  closes : ∀ (token parent : OpenToken) (rest : Cursor) (name : Str),
    step (reading (token :: parent :: rest)) (.endElement name) = some (reading (parent.attach token.close :: rest))
  characters : ∀ (token : OpenToken) (rest : Cursor) (chunk : Str),
    step (reading (token :: rest)) (.characters chunk) = some (reading (token.appendTextContent chunk :: rest))

/-- **A forest without errors is read into the current token.** -/
theorem foldlM_open {State : Type} {step : State → XmlEvent → Option State} {reading : Cursor → State}
    (reads : ReadsTokens step reading) {forest : List XmlNode} {events : List XmlEvent}
    (delivered : Delivered forest events) : hasErrors forest = false → ∀ (token : OpenToken) (rest : Cursor),
      events.foldlM step (reading (token :: rest)) = some (reading (token.absorb forest :: rest)) := by
  induction delivered with
  | nil =>
    intro _ token rest
    rw [OpenToken.absorb_nil]
    rfl
  | element name attrs below behind ihBelow ih =>
    intro clean token rest
    rw [hasErrors_cons, hasError_element, Bool.or_eq_false_iff] at clean
    rw [List.foldlM_cons, reads.opens, Option.bind_eq_bind, Option.bind_some, List.foldlM_append,
      ihBelow clean.1, Option.bind_eq_bind, Option.bind_some, List.foldlM_cons, reads.closes, Option.bind_eq_bind,
      Option.bind_some, ih clean.2, OpenToken.close_absorb_new, OpenToken.absorb_element]
  | @text chunks nodes events some behind ih =>
    intro clean token rest
    have all := @foldlM_characters Char State step OpenToken (fun token => reading (token :: rest))
      OpenToken.appendTextContent (fun token chunk => reads.characters token rest chunk)
      OpenToken.appendTextContent_appendTextContent chunks some token
    rw [hasErrors_cons, Node.hasError, Bool.false_or] at clean
    rw [List.foldlM_append, all, Option.bind_eq_bind, Option.bind_some, ih clean, OpenToken.absorb_text]
  | error behind ih =>
    intro clean
    rw [hasErrors_cons, Node.hasError, Bool.true_or] at clean
    cases clean

end MathWebSearch
