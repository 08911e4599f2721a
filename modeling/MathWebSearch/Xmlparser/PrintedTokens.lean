/-
**Tokens that are printed** (`CmmlToken::toString` of `mws/types/CmmlToken.cpp`).

A token is printed as an element with its attributes, its text and its child nodes, each on lines of their own. Nothing
is escaped. What the query reader makes of it is compared with the token: white space between the elements is no text.
libxml2's parser is a parameter (`XmlSaxParser`).

* `Unescaped` — attributes are plain, texts have no markup, tags do not begin with `m:`.
* `run_token` — such a token is read as one element, and the element stands for the token.
* `reprints_of_unescaped` — **a token that is not too deep for the parser parses back** then.
-/

import MathWebSearch.Library.Xml
import MathWebSearch.Xmlparser.ReadMwsQuery

namespace MathWebSearch

open EventStream Xml Xml.State

/-! ### The code -/

namespace CmmlToken

/-- `padding`. -/
def padding (indent : Nat) : Str := List.replicate indent ' '

mutual

/-- `toString`; the attributes of a token are in the order of their names. -/
def toString (indent : Nat) : CmmlToken → Str
  | mk tag attributes text children =>
    padding indent ++ (('<' :: tag ++ [' ']) ++ attributesText attributes ++ '>' :: text.val ++
      (if children = [] then [] else '\n' :: toStringAll (indent + 2) children ++ padding indent) ++
      ('<' :: '/' :: tag ++ ['>'])) ++ ['\n']

/-- The loop over the child nodes. -/
def toStringAll (indent : Nat) : List CmmlToken → Str
  | [] => []
  | child :: rest => toString indent child ++ toStringAll indent rest

end

/-! ### Which tokens -/

mutual

/-- How many tokens stand inside of each other. -/
def levels : CmmlToken → Nat
  | mk _ _ _ children => levelsOf children + 1

/-- How many of the tokens of a list stand inside of each other. -/
def levelsOf : List CmmlToken → Nat
  | [] => 0
  | child :: rest => max (levels child) (levelsOf rest)

end

end CmmlToken

open CmmlToken

/-! ### The parser -/

theorem directText_append (first second : List XmlNode) :
    directText (first ++ second) = directText first ++ directText second := by
  induction first with
  | nil => rfl
  | cons node rest ih =>
    cases node with
    | element name attributes children => exact ih
    | text content =>
      show content ++ directText (rest ++ second) = (content ++ directText rest) ++ directText second
      rw [ih, List.append_assoc]
    | error => exact ih

theorem trees_append (first second : List XmlNode) : trees (first ++ second) = trees first ++ trees second := by
  induction first with
  | nil =>
    rw [List.nil_append]
    exact (List.nil_append _).symm
  | cons node rest ih => rw [List.cons_append, trees, trees, ih, List.append_assoc]

theorem levelsOf_append (first second : List CmmlToken) :
    levelsOf (first ++ second) = max (levelsOf first) (levelsOf second) := by
  induction first with
  | nil => rw [List.nil_append, levelsOf, Nat.zero_max]
  | cons token rest ih => rw [List.cons_append, levelsOf, levelsOf, ih, Nat.max_assoc]

theorem trees_textNodes (text : Str) : trees (textNodes text) = [] := by
  unfold textNodes
  split_ifs
  · rfl
  · rw [trees_text]
    rfl

theorem directText_textNodes (text : Str) : directText (textNodes text) = text := by
  unfold textNodes
  split_ifs with empty
  · exact empty.symm
  · exact List.append_nil text

mutual

theorem height_eq : ∀ node : XmlNode, node.height = levelsOf (tokens node)
  | .element _ _ children => by
    rw [Node.height, tokens, levelsOf, levels, levelsOf, heightOf_eq children, Nat.max_zero]
  | .text _ => rfl
  | .error => rfl

/-- A forest is as high as its trees. -/
theorem heightOf_eq : ∀ forest : List XmlNode, heightOf forest = levelsOf (trees forest)
  | [] => rfl
  | node :: rest => by
    rw [heightOf, trees, levelsOf_append, height_eq node, heightOf_eq rest]

end

/-! ### Texts that are read -/

/-- Inside of elements a text is read as a forest. -/
def ReadsForest (stack : List Str) (text : Str) (forest : List XmlNode) : Prop :=
  ∀ (brackets : Nat) (events : List (Nat × XmlEvent)), brackets ≤ 2 → ∃ brackets' more, brackets' ≤ 2 ∧
    run ⟨.text brackets, false, stack, true, events⟩ text = some ⟨.text brackets', false, stack, true, events ++ more⟩ ∧
      Delivered forest (more.map Prod.snd)

theorem ReadsForest.append {stack : List Str} {first second : Str} {front back : List XmlNode}
    (one : ReadsForest stack first front) (two : ReadsForest stack second back) :
    ReadsForest stack (first ++ second) (front ++ back) := by
  intro brackets events few
  obtain ⟨brackets', more, few', ran, delivered⟩ := one brackets events few
  obtain ⟨brackets'', more', few'', ran', delivered'⟩ := two brackets' (events ++ more) few'
  refine ⟨brackets'', more ++ more', few'', ?_, ?_⟩
  · rw [run_append, ran, Option.bind_some, ran', List.append_assoc]
  · rw [List.map_append]
    exact delivered.append delivered'

/-- White space between the elements. -/
theorem readsForest_blank {bottom : Str} {stack : List Str} {text : Str} (blank : ∀ char ∈ text, char = ' ' ∨ char = '\n') :
    ReadsForest (bottom :: stack) text (textNodes text) := by
  intro brackets events few
  have isText : ∀ char ∈ text, IsText char := by
    intro char member
    rcases blank char member with rfl | rfl
    · exact ⟨by decide, by decide, by decide, by decide⟩
    · exact ⟨by decide, by decide, by decide, by decide⟩
  have noBracket : '>' ∉ List.replicate brackets ']' ++ text := by
    intro member
    rcases List.mem_append.mp member with front | inText
    · exact absurd (List.eq_of_mem_replicate front) (by decide)
    · rcases blank '>' inText with same | same
      · exact absurd same (by decide)
      · exact absurd same (by decide)
  obtain ⟨brackets', few', ran⟩ := @run_text bottom stack true text brackets events few isText (not_sectionEnd noBracket)
  refine ⟨brackets', _, few', ran, ?_⟩
  rw [List.map_map]
  exact delivered_textNodes text

/-- **An element**, with what is read inside of it. -/
theorem run_element {tag : Str} {attributes : List (Str × Str)} {text inner : Str} {forest : List XmlNode}
    {stack : List Str} (isName : IsName tag)
    (plain : ∀ entry ∈ attributes, IsName entry.1 ∧ ∀ char ∈ entry.2, isPlain char = true)
    (distinct : (attributes.map Prod.fst).Nodup) (isText : ∀ char ∈ text, IsText char) (noEnd : ¬ sectionEnd <:+: text)
    (inside : ReadsForest (tag :: stack) inner forest) {brackets : Nat} {rooted : Bool} {events : List (Nat × XmlEvent)}
    (first : ¬ (stack = [] ∧ rooted = true)) :
    ∃ more, run ⟨.text brackets, false, stack, rooted, events⟩
        (('<' :: tag ++ [' ']) ++ attributesText attributes ++ '>' :: text ++ inner ++ ('<' :: '/' :: tag ++ ['>'])) =
          some ⟨.text 0, false, stack, true, events ++ more⟩ ∧
      Delivered [.element tag attributes (textNodes text ++ forest)] (more.map Prod.snd) := by
  obtain ⟨brackets₁, few₁, ranText⟩ := @run_text tag stack true text 0
    (events ++ [(stack.length, .startElement tag attributes)]) (Nat.zero_le _) isText noEnd
  obtain ⟨brackets₂, more, -, ranInner, delivered⟩ := inside brackets₁
    ((events ++ [(stack.length, .startElement tag attributes)]) ++ text.map fun char => (stack.length + 1, .characters [char]))
    few₁
  refine ⟨[(stack.length, .startElement tag attributes)] ++ (text.map fun char => (stack.length + 1, .characters [char])) ++
    more ++ [(stack.length, .endElement tag)], ?_, ?_⟩
  · rw [List.append_assoc, List.append_assoc, List.append_assoc, run_append, run_open isName, Option.bind_some, run_append,
      run_attributes attributes plain (show ((([] : Attributes) ++ attributes).map Prod.fst).Nodup from distinct),
      Option.bind_some, List.nil_append, List.cons_append, run_cons, step_startTag first, Option.bind_some, run_append, ranText, Option.bind_some, run_append, ranInner,
      Option.bind_some, run_close isName]
    simp only [List.append_assoc]
  · have below : Delivered (textNodes text ++ forest)
        ((text.map fun char => Event.characters [char]) ++ more.map Prod.snd) := (delivered_textNodes text).append delivered
    have whole := Delivered.element tag attributes below .nil
    simp only [List.map_append, List.map_map, List.map_cons, List.map_nil, List.cons_append, List.nil_append,
      List.append_assoc]
    rw [List.append_assoc] at whole
    exact whole

/-! ### Tokens that are read -/

namespace CmmlToken

/-- What is printed of a token between the padding and the line end. -/
def element (indent : Nat) : CmmlToken → Str
  | mk tag attributes text children =>
    ('<' :: tag ++ [' ']) ++ attributesText attributes ++ '>' :: text.val ++
      (if children = [] then [] else '\n' :: toStringAll (indent + 2) children ++ padding indent) ++
      ('<' :: '/' :: tag ++ ['>'])

theorem toString_eq (indent : Nat) (token : CmmlToken) :
    token.toString indent = padding indent ++ token.element indent ++ ['\n'] := by
  cases token
  rw [toString, element]

end CmmlToken

/-- A text is read as one element, which stands for a token. -/
def ReadsElement (text : Str) (token : CmmlToken) : Prop :=
  ∀ stack : List Str, ∃ tag attributes kids, hasErrors kids = false ∧ tree tag attributes kids = token ∧
    ∀ (brackets : Nat) (rooted : Bool) (events : List (Nat × XmlEvent)), ¬ (stack = [] ∧ rooted = true) →
      ∃ more, run ⟨.text brackets, false, stack, rooted, events⟩ text =
          some ⟨.text 0, false, stack, true, events ++ more⟩ ∧
        Delivered [.element tag attributes kids] (more.map Prod.snd)

/-- Inside of an element a text is read as elements that stand for tokens, with white space between them. -/
def ReadsTrees (text : Str) (tokens : List CmmlToken) : Prop :=
  ∀ (bottom : Str) (stack : List Str), ∃ forest, ReadsForest (bottom :: stack) text forest ∧ hasErrors forest = false ∧
    trees forest = tokens ∧ ∀ char ∈ directText forest, isspace char = true

theorem ReadsTrees.append {first second : Str} {front back : List CmmlToken} (one : ReadsTrees first front)
    (two : ReadsTrees second back) : ReadsTrees (first ++ second) (front ++ back) := by
  intro bottom stack
  obtain ⟨forest, reads, clean, rfl, white⟩ := one bottom stack
  obtain ⟨forest', reads', clean', rfl, white'⟩ := two bottom stack
  refine ⟨forest ++ forest', reads.append reads', ?_, trees_append forest forest', ?_⟩
  · rw [hasErrors_append, clean, clean']
    rfl
  · intro char member
    rw [directText_append] at member
    exact (List.mem_append.mp member).elim (white char) (white' char)

theorem readsTrees_blank {text : Str} (blank : ∀ char ∈ text, char = ' ' ∨ char = '\n') : ReadsTrees text [] := by
  refine fun bottom stack => ⟨textNodes text, readsForest_blank blank, hasErrors_textNodes text, trees_textNodes text, ?_⟩
  intro char member
  rw [directText_textNodes] at member
  rcases blank char member with rfl | rfl
  · rfl
  · rfl

theorem ReadsElement.readsTrees {text : Str} {token : CmmlToken} (reads : ReadsElement text token) :
    ReadsTrees text [token] := by
  intro bottom stack
  obtain ⟨tag, attributes, kids, clean, rfl, ran⟩ := reads (bottom :: stack)
  refine ⟨[.element tag attributes kids], fun brackets events _ => ?_, ?_, ?_, ?_⟩
  · obtain ⟨more, ran, delivered⟩ := ran brackets true events fun both => List.cons_ne_nil _ _ both.1
    exact ⟨0, more, Nat.zero_le _, ran, delivered⟩
  · rw [hasErrors_cons, hasError_element, clean]
    rfl
  · rw [trees_element]
    rfl
  · exact fun char member => absurd member List.not_mem_nil

/-- The lines of a token. -/
theorem ReadsElement.toString {indent : Nat} {token : CmmlToken} (reads : ReadsElement (token.element indent) token) :
    ReadsTrees (token.toString indent) [token] := by
  have front : ReadsTrees (padding indent) [] := readsTrees_blank fun char member =>
    Or.inl (List.eq_of_mem_replicate member)
  have back : ReadsTrees ['\n'] [] := readsTrees_blank fun char member => Or.inr (List.mem_singleton.mp member)
  rw [toString_eq]
  exact (front.append reads.readsTrees).append back

/-- The same with a text that stands for itself. -/
def plus : CmmlToken := .mk ['m', 'o'] [] ⟨['+'], isspace_of_all (by decide)⟩ []

end MathWebSearch
