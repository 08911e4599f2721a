/-
**Well-formed XML documents, read by a machine with a stack.**

The machine reads the characters one after the other; its stack holds the names of the elements that are open. What it
reports are the events of the document, each with the number of elements that are open around it. Line ends are
normalized, references are replaced. Documents have the declaration `<?xml version="1.0" ?>`, and no document type.

* `run_frame` — what is read inside of an element does not depend on the elements around it.
* `quotedValue`, `run_inValue` — what a value stands for that is written between double quotes.
* `readValue_spec` — **a value that is read as it is written is plain**: it has no references, and no other white space
  than blanks.
* `run_tag` — a start tag that has been begun is reported with the attributes read so far.
* `run_swallows` — inside of comments, sections and instructions nothing is reported.
-/

import MathWebSearch.Library.EventStream

namespace Xml

open EventStream

/-! ### Characters -/

def inRanges (ranges : List (Nat × Nat)) (char : Char) : Bool :=
  ranges.any fun range => range.1 ≤ char.toNat && char.toNat ≤ range.2

/-- `Char`. -/
def isChar (char : Char) : Bool :=
  inRanges [(0x9, 0xA), (0xD, 0xD), (0x20, 0xD7FF), (0xE000, 0xFFFD), (0x10000, 0x10FFFF)] char

/-- `S`. -/
def isSpace (char : Char) : Bool := char = ' ' || char = '\t' || char = '\n' || char = '\r'

/-- `NameStartChar`. -/
def isNameStart (char : Char) : Bool :=
  inRanges [(0x3A, 0x3A), (0x41, 0x5A), (0x5F, 0x5F), (0x61, 0x7A), (0xC0, 0xD6), (0xD8, 0xF6), (0xF8, 0x2FF),
    (0x370, 0x37D), (0x37F, 0x1FFF), (0x200C, 0x200D), (0x2070, 0x218F), (0x2C00, 0x2FEF), (0x3001, 0xD7FF),
    (0xF900, 0xFDCF), (0xFDF0, 0xFFFD), (0x10000, 0xEFFFF)] char

/-- `NameChar`. -/
def isNameChar (char : Char) : Bool :=
  isNameStart char ||
    inRanges [(0x2D, 0x2E), (0x30, 0x39), (0xB7, 0xB7), (0x300, 0x36F), (0x203F, 0x2040)] char

/-! ### References -/

def digit (char : Char) : Option Nat := if char.isDigit then some (char.toNat - '0'.toNat) else none

def hexDigit (char : Char) : Option Nat :=
  if char.isDigit then some (char.toNat - '0'.toNat)
  else if 'a' ≤ char ∧ char ≤ 'f' then some (char.toNat - 'a'.toNat + 10)
  else if 'A' ≤ char ∧ char ≤ 'F' then some (char.toNat - 'A'.toNat + 10)
  else none

/-- The number that digits stand for. -/
def numeral (base : Nat) (value : Char → Option Nat) (digits : List Char) : Option Nat :=
  if digits = [] then none else digits.foldlM (fun number char => (value char).map (base * number + ·)) 0

/-- The character with a number. -/
def charOf (number : Nat) : Option Char :=
  if number.isValidChar ∧ isChar (Char.ofNat number) = true then some (Char.ofNat number) else none

/-- The predefined entities. -/
def predefined : List (List Char × Char) :=
  [(['l', 't'], '<'), (['g', 't'], '>'), (['a', 'm', 'p'], '&'), (['a', 'p', 'o', 's'], '\''), (['q', 'u', 'o', 't'], '"')]

/-- What stands between `&` and `;`. -/
def decodeReference : List Char → Option Char
  | '#' :: 'x' :: digits => (numeral 16 hexDigit digits).bind charOf
  | '#' :: digits => (numeral 10 digit digits).bind charOf
  | name => predefined.lookup name

/-! ### The machine -/

abbrev Attributes := List (List Char × List Char)

/-- Where the machine is in the text; `brackets` and `dashes` count how many of them are just before. -/
inductive Lex where
  | text (brackets : Nat)
  | textReference (reference : List Char)
  | markup
  | startName (name : List Char)
  | tag (name : List Char) (attributes : Attributes) (spaced : Bool)
  | attributeName (name : List Char) (attributes : Attributes) (key : List Char)
  | equals (name : List Char) (attributes : Attributes) (key : List Char)
  | quote (name : List Char) (attributes : Attributes) (key : List Char)
  | value (name : List Char) (attributes : Attributes) (key : List Char) (quote : Char) (content : List Char)
  | valueReference (name : List Char) (attributes : Attributes) (key : List Char) (quote : Char) (content : List Char)
    (reference : List Char)
  | slash (name : List Char) (attributes : Attributes)
  | endName (name : List Char)
  | endSpace (name : List Char)
  | declaration (front : List Char)
  | comment (dashes : Nat)
  | cdata (brackets : Nat)
  | target (name : List Char)
  | instruction (question : Bool)
  | instructionEnd
deriving DecidableEq

/-- What a character completes. -/
inductive Signal where
  | silent
  | characters (chunk : List Char)
  | start (name : List Char) (attributes : Attributes)
  | empty (name : List Char) (attributes : Attributes)
  | close (name : List Char)
deriving DecidableEq

/-- `xml` is no target of an instruction. -/
def isReserved (name : List Char) : Bool := name.map Char.toLower = ['x', 'm', 'l']

/-- How `<!` goes on. -/
def commentMark : List Char := ['-', '-']
def cdataMark : List Char := ['[', 'C', 'D', 'A', 'T', 'A', '[']

/-- Behind `<!`. -/
def scanDeclaration (inside : Bool) (front : List Char) : Option (Lex × Signal) :=
  if front = commentMark then some (.comment 0, .silent)
  else if front = cdataMark ∧ inside then some (.cdata 0, .silent)
  else if front <+: commentMark ∨ front <+: cdataMark then some (.declaration front, .silent)
  else none

/-- One character; `inside` of the root or outside of it. -/
def scan (inside : Bool) (lex : Lex) (char : Char) : Option (Lex × Signal) :=
  match lex with
  | .text brackets =>
    if char = '<' then some (.markup, .silent)
    else if inside then
      if char = '&' then some (.textReference [], .silent)
      else if char = ']' then some (.text (min (brackets + 1) 2), .characters [char])
      else if char = '>' ∧ brackets = 2 then none
      else some (.text 0, .characters [char])
    else if isSpace char then some (.text 0, .silent)
    else none
  | .textReference reference =>
    if char = ';' then (decodeReference reference).map fun decoded => (.text 0, .characters [decoded])
    else if isNameChar char ∨ char = '#' then some (.textReference (reference ++ [char]), .silent)
    else none
  | .markup =>
    if char = '/' then some (.endName [], .silent)
    else if char = '!' then some (.declaration [], .silent)
    else if char = '?' then some (.target [], .silent)
    else if isNameStart char then some (.startName [char], .silent)
    else none
  | .startName name =>
    if isNameChar char then some (.startName (name ++ [char]), .silent)
    else if isSpace char then some (.tag name [] true, .silent)
    else if char = '/' then some (.slash name [], .silent)
    else if char = '>' then some (.text 0, .start name [])
    else none
  | .tag name attributes spaced =>
    if isSpace char then some (.tag name attributes true, .silent)
    else if char = '/' then some (.slash name attributes, .silent)
    else if char = '>' then some (.text 0, .start name attributes)
    else if spaced && isNameStart char then some (.attributeName name attributes [char], .silent)
    else none
  | .attributeName name attributes key =>
    if isNameChar char then some (.attributeName name attributes (key ++ [char]), .silent)
    else if isSpace char then some (.equals name attributes key, .silent)
    else if char = '=' then some (.quote name attributes key, .silent)
    else none
  | .equals name attributes key =>
    if isSpace char then some (.equals name attributes key, .silent)
    else if char = '=' then some (.quote name attributes key, .silent)
    else none
  | .quote name attributes key =>
    if isSpace char then some (.quote name attributes key, .silent)
    else if char = '"' ∨ char = '\'' then some (.value name attributes key char [], .silent)
    else none
  | .value name attributes key quote content =>
    if char = '<' then none
    else if char = quote then
      if attributes.any fun entry => entry.1 = key then none
      else some (.tag name (attributes ++ [(key, content)]) false, .silent)
    else if char = '&' then some (.valueReference name attributes key quote content [], .silent)
    else if isSpace char then some (.value name attributes key quote (content ++ [' ']), .silent)
    else some (.value name attributes key quote (content ++ [char]), .silent)
  | .valueReference name attributes key quote content reference =>
    if char = ';' then
      (decodeReference reference).map fun decoded => (.value name attributes key quote (content ++ [decoded]), .silent)
    else if isNameChar char ∨ char = '#' then
      some (.valueReference name attributes key quote content (reference ++ [char]), .silent)
    else none
  | .slash name attributes => if char = '>' then some (.text 0, .empty name attributes) else none
  | .endName name =>
    if name = [] then if isNameStart char then some (.endName [char], .silent) else none
    else if isNameChar char then some (.endName (name ++ [char]), .silent)
    else if isSpace char then some (.endSpace name, .silent)
    else if char = '>' then some (.text 0, .close name)
    else none
  | .endSpace name =>
    if isSpace char then some (.endSpace name, .silent)
    else if char = '>' then some (.text 0, .close name)
    else none
  | .declaration front => scanDeclaration inside (front ++ [char])
  | .comment dashes =>
    if dashes = 2 then if char = '>' then some (.text 0, .silent) else none
    else if char = '-' then some (.comment (dashes + 1), .silent)
    else some (.comment 0, .silent)
  | .cdata brackets =>
    if char = '>' ∧ brackets = 2 then some (.text 0, .silent)
    else if char = ']' then
      if brackets = 2 then some (.cdata 2, .characters [char]) else some (.cdata (brackets + 1), .silent)
    else some (.cdata 0, .characters (List.replicate brackets ']' ++ [char]))
  | .target name =>
    if name = [] then if isNameStart char then some (.target [char], .silent) else none
    else if isNameChar char then some (.target (name ++ [char]), .silent)
    else if isReserved name then none
    else if isSpace char then some (.instruction false, .silent)
    else if char = '?' then some (.instructionEnd, .silent)
    else none
  | .instruction question =>
    if char = '>' ∧ question then some (.text 0, .silent)
    else some (.instruction (char = '?'), .silent)
  | .instructionEnd => if char = '>' then some (.text 0, .silent) else none

/-- The machine: `returned` says that the last character was a carriage return, `rooted` that the root has begun. -/
structure State where
  lex : Lex
  returned : Bool
  stack : List (List Char)
  rooted : Bool
  events : List (Nat × Event Char)

namespace State

def init : State := ⟨.text 0, false, [], false, []⟩

/-- What a signal does to the stack. -/
def act (self : State) : Signal → Option State
  | .silent => some self
  | .characters chunk => some { self with events := self.events ++ [(self.stack.length, .characters chunk)] }
  | .start name attributes =>
    if self.stack = [] ∧ self.rooted = true then none
    else some { self with
      stack := name :: self.stack, rooted := true
      events := self.events ++ [(self.stack.length, .startElement name attributes)] }
  | .empty name attributes =>
    if self.stack = [] ∧ self.rooted = true then none
    else some { self with
      rooted := true
      events := self.events ++
        [(self.stack.length, .startElement name attributes), (self.stack.length, .endElement name)] }
  | .close name =>
    match self.stack with
    | [] => none
    | top :: rest =>
      if top = name then
        some { self with stack := rest, events := self.events ++ [(rest.length, .endElement name)] }
      else none

/-- One character behind the normalization of line ends. -/
def advance (self : State) (char : Char) : Option State :=
  (scan (!self.stack.isEmpty) self.lex char).bind fun result => { self with lex := result.1 }.act result.2

/-- A line end is a line feed. -/
def normalize (char : Char) : Char := if char = '\r' then '\n' else char

/-- One character. -/
def step (self : State) (char : Char) : Option State :=
  if isChar char = false then none
  else if char = '\n' ∧ self.returned = true then some { self with returned := false }
  else (self.advance (normalize char)).map fun next => { next with returned := char = '\r' }

/-- A text. -/
def run (self : State) (text : List Char) : Option State := text.foldlM step self

/-- The root has been read, and nothing is open. -/
def Accepted (self : State) : Prop := (∃ brackets, self.lex = .text brackets) ∧ self.stack = [] ∧ self.rooted = true

end State

open State

/-- `<?xml version="1.0" ?>`. -/
def xmlDeclaration : List Char := "<?xml version=\"1.0\" ?>".toList

/-- **The document is well-formed**, and these are its events. This is the recommendation, without the limits that a
parser may have. -/
def Reads (document : List Char) (events : List (Nat × Event Char)) : Prop :=
  ∃ rest final, document = xmlDeclaration ++ rest ∧ run init rest = some final ∧ final.Accepted ∧ final.events = events

/-- The start tags of the elements that a number of elements are open around. -/
def tagsAt (level : Nat) (events : List (Nat × Event Char)) : List (List Char × Attributes) :=
  events.filterMap fun entry =>
    match entry with
    | (depth, .startElement name attributes) => if depth = level then some (name, attributes) else none
    | _ => none

/-- The events of a document, if the machine reads it. -/
def eventsOf (document : List Char) : Option (List (Nat × Event Char)) :=
  if xmlDeclaration.isPrefixOf document then
    (run init (document.drop xmlDeclaration.length)).bind fun final =>
      match final.lex with
      | .text _ => if final.stack.isEmpty && final.rooted then some final.events else none
      | _ => none
  else none

/-- A document is read by the machine. -/
def accepts (document : List Char) : Bool := (eventsOf document).isSome

theorem reads_of_accepts {document : List Char} (accepted : accepts document = true) : ∃ events, Reads document events := by
  obtain ⟨events, is⟩ := Option.isSome_iff_exists.mp accepted
  unfold eventsOf at is
  split_ifs at is with declared
  obtain ⟨final, ran, ends⟩ := Option.bind_eq_some_iff.mp is
  obtain ⟨rest, rfl⟩ := List.isPrefixOf_iff_prefix.mp declared
  rw [List.drop_left] at ran
  split at ends
  · next brackets text =>
    split_ifs at ends with both
    obtain ⟨closed, rooted⟩ := Bool.and_eq_true_iff.mp both
    exact ⟨final.events, rest, final, rfl, ran, ⟨⟨brackets, text⟩, List.isEmpty_iff.mp closed, rooted⟩, rfl⟩
  · cases ends

theorem tagsAt_append (level : Nat) (first second : List (Nat × Event Char)) :
    tagsAt level (first ++ second) = tagsAt level first ++ tagsAt level second := List.filterMap_append

/-! ### Texts -/

theorem run_nil (self : State) : run self [] = some self := rfl

theorem run_cons (self : State) (char : Char) (text : List Char) :
    run self (char :: text) = (self.step char).bind fun next => run next text := rfl

theorem run_append (self : State) (first second : List Char) :
    run self (first ++ second) = (run self first).bind fun next => run next second := List.foldlM_append

/-- **One character**: a line feed that is left out, or what the machine does next. -/
theorem step_cases {self next : State} {char : Char} (stepped : self.step char = some next) : isChar char = true ∧
    ((char = '\n' ∧ self.returned = true) ∧ next = { self with returned := false } ∨
      ¬ (char = '\n' ∧ self.returned = true) ∧ ∃ lex signal acted,
        scan (!self.stack.isEmpty) self.lex (normalize char) = some (lex, signal) ∧
        { self with lex := lex }.act signal = some acted ∧ next = { acted with returned := char = '\r' }) := by
  unfold step at stepped
  by_cases legal : isChar char = true
  · refine ⟨legal, ?_⟩
    rw [if_neg (by rw [legal]; decide)] at stepped
    by_cases line : char = '\n' ∧ self.returned = true
    · rw [if_pos line] at stepped
      exact Or.inl ⟨line, (Option.some.inj stepped).symm⟩
    · rw [if_neg line] at stepped
      obtain ⟨acted, advanced, rfl⟩ := Option.map_eq_some_iff.mp stepped
      obtain ⟨⟨lex, signal⟩, scanned, done⟩ := Option.bind_eq_some_iff.mp advanced
      exact Or.inr ⟨line, lex, signal, acted, scanned, done, rfl⟩
  · rw [if_pos (Bool.eq_false_of_not_eq_true legal)] at stepped
    cases stepped

theorem step_left_out {self : State} {char : Char} (legal : isChar char = true) (line : char = '\n' ∧ self.returned = true) :
    self.step char = some { self with returned := false } := by
  unfold step
  rw [if_neg (by rw [legal]; decide), if_pos line]

theorem step_of_scan {self acted : State} {char : Char} {lex : Lex} {signal : Signal} (legal : isChar char = true)
    (other : ¬ (char = '\n' ∧ self.returned = true))
    (scanned : scan (!self.stack.isEmpty) self.lex (normalize char) = some (lex, signal))
    (done : { self with lex := lex }.act signal = some acted) :
    self.step char = some { acted with returned := char = '\r' } := by
  unfold step advance
  rw [if_neg (by rw [legal]; decide), if_neg other, scanned, Option.bind_some, done]
  rfl

/-- Everything that is read is a character of XML. -/
theorem isChar_of_run (text : List Char) : ∀ {self final : State}, run self text = some final →
    ∀ char ∈ text, isChar char = true := by
  induction text with
  | nil => exact fun _ char member => absurd member List.not_mem_nil
  | cons first rest ih =>
    intro self final ran
    obtain ⟨next, stepped, later⟩ := Option.bind_eq_some_iff.mp ran
    exact List.forall_mem_cons.mpr ⟨(step_cases stepped).1, ih later⟩

/-! ### Outside of the root -/

theorem act_rooted {self next : State} {signal : Signal} (acted : self.act signal = some next) (rooted : self.rooted = true) :
    next.rooted = true ∧ (self.stack = [] → next.stack = []) := by
  unfold act at acted
  cases signal with
  | silent => exact Option.some.inj acted ▸ ⟨rooted, id⟩
  | characters chunk => exact Option.some.inj acted ▸ ⟨rooted, id⟩
  | start name attributes =>
    dsimp only at acted
    split_ifs at acted with closed
    exact Option.some.inj acted ▸ ⟨rfl, fun empty => absurd ⟨empty, rooted⟩ closed⟩
  | empty name attributes =>
    dsimp only at acted
    split_ifs at acted with closed
    exact Option.some.inj acted ▸ ⟨rfl, id⟩
  | close name =>
    dsimp only at acted
    split at acted
    · cases acted
    · next top rest open' =>
      split_ifs at acted
      exact Option.some.inj acted ▸ ⟨rooted, fun empty => by rw [open'] at empty; cases empty⟩

theorem step_rooted {self next : State} {char : Char} (stepped : self.step char = some next) (rooted : self.rooted = true) :
    next.rooted = true ∧ (self.stack = [] → next.stack = []) := by
  rcases (step_cases stepped).2 with ⟨-, rfl⟩ | ⟨-, lex, signal, acted, -, done, rfl⟩
  · exact ⟨rooted, id⟩
  · obtain ⟨rooted', closed⟩ := act_rooted done rooted
    exact ⟨rooted', closed⟩

/-- Behind the root no element is opened. -/
theorem run_closed (text : List Char) : ∀ {self final : State}, run self text = some final → self.rooted = true →
    self.stack = [] → final.stack = [] := by
  induction text with
  | nil => exact fun ran _ closed => Option.some.inj ran ▸ closed
  | cons char rest ih =>
    intro self final ran rooted closed
    obtain ⟨next, stepped, later⟩ := Option.bind_eq_some_iff.mp ran
    obtain ⟨rooted', closed'⟩ := step_rooted stepped rooted
    exact ih later rooted' (closed' closed)

/-! ### Inside of an element -/

/-- Events with more elements open around them. -/
def shift (depth : Nat) (events : List (Nat × Event Char)) : List (Nat × Event Char) :=
  events.map fun entry => (entry.1 + depth, entry.2)

theorem shift_append (depth : Nat) (first second : List (Nat × Event Char)) :
    shift depth (first ++ second) = shift depth first ++ shift depth second := List.map_append

/-- Deep inside there are no start tags of a level further out. -/
theorem tagsAt_shift {level depth : Nat} (deeper : level < depth) (events : List (Nat × Event Char)) :
    tagsAt level (shift depth events) = [] := by
  unfold tagsAt shift
  rw [List.filterMap_map, List.filterMap_eq_nil_iff]
  rintro ⟨inner, event⟩ -
  cases event with
  | startElement name attributes => exact if_neg (by dsimp only; omega)
  | characters chunk => rfl
  | endElement name => rfl
  | error => rfl

/-- One signal: the element at the bottom of the stack is closed, or what happens does not depend on it. -/
theorem act_frame {lex : Lex} {returned : Bool} {inner : List (List Char)} {bottom : List Char}
    {events : List (Nat × Event Char)} {signal : Signal} {next : State}
    (acted : act ⟨lex, returned, inner ++ [bottom], true, events⟩ signal = some next) (open' : next.stack ≠ []) :
    ∃ inner' more, next = ⟨lex, returned, inner' ++ [bottom], true, events ++ shift 1 more⟩ ∧
      ∀ base events', base ≠ [] → act ⟨lex, returned, inner ++ base, true, events'⟩ signal =
        some ⟨lex, returned, inner' ++ base, true, events' ++ shift base.length more⟩ := by
  unfold act at acted ⊢
  cases signal with
  | silent =>
    refine ⟨inner, [], ?_, fun base events' _ => ?_⟩
    · rw [shift, List.map_nil, List.append_nil]
      exact (Option.some.inj acted).symm
    · rw [shift, List.map_nil, List.append_nil]
  | characters chunk =>
    refine ⟨inner, [(inner.length, .characters chunk)], ?_, fun base events' _ => ?_⟩
    · rw [← Option.some.inj acted, List.length_append, List.length_singleton]
      rfl
    · dsimp only
      rw [List.length_append]
      rfl
  | start name attributes =>
    dsimp only at acted ⊢
    rw [if_neg fun both => absurd both.1 (by simp)] at acted
    refine ⟨name :: inner, [(inner.length, .startElement name attributes)], ?_, fun base events' nonempty => ?_⟩
    · rw [← Option.some.inj acted, List.length_append, List.length_singleton]
      rfl
    · rw [if_neg fun both => nonempty (List.append_eq_nil_iff.mp both.1).2, List.length_append]
      rfl
  | empty name attributes =>
    dsimp only at acted ⊢
    rw [if_neg fun both => absurd both.1 (by simp)] at acted
    refine ⟨inner, [(inner.length, .startElement name attributes), (inner.length, .endElement name)], ?_,
      fun base events' nonempty => ?_⟩
    · rw [← Option.some.inj acted, List.length_append, List.length_singleton]
      rfl
    · rw [if_neg fun both => nonempty (List.append_eq_nil_iff.mp both.1).2, List.length_append]
      rfl
  | close name =>
    cases inner with
    | nil =>
      dsimp only [List.nil_append] at acted
      split at acted
      · exact absurd (congrArg State.stack (Option.some.inj acted)).symm open'
      · cases acted
    | cons top rest =>
      dsimp only [List.cons_append] at acted ⊢
      split at acted
      · next same =>
        refine ⟨rest, [(rest.length, .endElement name)], ?_, fun base events' _ => ?_⟩
        · rw [← Option.some.inj acted, List.length_append, List.length_singleton]
          rfl
        · rw [if_pos same, List.length_append]
          rfl
      · cases acted

/-- One character. -/
theorem step_frame {lex : Lex} {returned : Bool} {inner : List (List Char)} {bottom : List Char}
    {events : List (Nat × Event Char)} {char : Char} {next : State}
    (stepped : step ⟨lex, returned, inner ++ [bottom], true, events⟩ char = some next) (open' : next.stack ≠ []) :
    ∃ lex' returned' inner' more, next = ⟨lex', returned', inner' ++ [bottom], true, events ++ shift 1 more⟩ ∧
      ∀ base events', base ≠ [] → step ⟨lex, returned, inner ++ base, true, events'⟩ char =
        some ⟨lex', returned', inner' ++ base, true, events' ++ shift base.length more⟩ := by
  have inside : ∀ base : List (List Char), base ≠ [] → (!(inner ++ base).isEmpty) = true := by
    intro base nonempty
    rw [Bool.not_eq_true', List.isEmpty_eq_false_iff]
    exact fun empty => nonempty (List.append_eq_nil_iff.mp empty).2
  obtain ⟨legal, ⟨line, rfl⟩ | ⟨other, lex', signal, acted, scanned, done, rfl⟩⟩ := step_cases stepped
  · refine ⟨lex, false, inner, [], ?_, fun base events' _ => ?_⟩
    · rw [shift, List.map_nil, List.append_nil]
    · rw [shift, List.map_nil, List.append_nil]
      exact step_left_out legal line
  · obtain ⟨inner', more, rfl, others⟩ := act_frame done open'
    refine ⟨lex', _, inner', more, rfl, fun base events' nonempty => ?_⟩
    dsimp only at scanned
    rw [inside _ (List.cons_ne_nil _ _)] at scanned
    refine @step_of_scan ⟨lex, returned, inner ++ base, true, events'⟩ _ char lex' signal legal other ?_
      (others base events' nonempty)
    dsimp only
    rw [inside base nonempty, scanned]

/-- **What is read inside of an element** does not depend on the elements around it. -/
theorem run_frame (text : List Char) {bottom : List Char} : ∀ {lex : Lex} {returned : Bool} {inner : List (List Char)}
    {events : List (Nat × Event Char)} {final : State},
    run ⟨lex, returned, inner ++ [bottom], true, events⟩ text = some final → final.stack ≠ [] →
    ∃ lex' returned' inner' more, final = ⟨lex', returned', inner' ++ [bottom], true, events ++ shift 1 more⟩ ∧
      ∀ base events', base ≠ [] → run ⟨lex, returned, inner ++ base, true, events'⟩ text =
        some ⟨lex', returned', inner' ++ base, true, events' ++ shift base.length more⟩ := by
  induction text with
  | nil =>
    intro lex returned inner events final ran _
    refine ⟨lex, returned, inner, [], ?_, fun base events' _ => ?_⟩
    · rw [shift, List.map_nil, List.append_nil]
      exact (Option.some.inj ran).symm
    · rw [shift, List.map_nil, List.append_nil, run_nil]
  | cons char rest ih =>
    intro lex returned inner events final ran open'
    obtain ⟨next, stepped, later⟩ := Option.bind_eq_some_iff.mp ran
    have still : next.stack ≠ [] := fun closed => open' (run_closed rest later (step_rooted stepped rfl).1 closed)
    obtain ⟨lex', returned', inner', more, rfl, here⟩ := step_frame stepped still
    obtain ⟨lex'', returned'', inner'', more', rfl, there⟩ := ih later open'
    refine ⟨lex'', returned'', inner'', more ++ more', ?_, fun base events' nonempty => ?_⟩
    · rw [shift_append, List.append_assoc]
    · rw [run_cons, here base events' nonempty, Option.bind_some, there base _ nonempty, shift_append, List.append_assoc]

/-! ### Attribute values -/

/-- A character that stands for itself in a value between double quotes. -/
def isPlain (char : Char) : Bool :=
  isChar char && char ≠ '"' && char ≠ '<' && char ≠ '&' && (char = ' ' || !isSpace char)

theorem isPlain_iff {char : Char} : isPlain char = true ↔
    isChar char = true ∧ char ≠ '"' ∧ char ≠ '<' ∧ char ≠ '&' ∧ (char = ' ' ∨ isSpace char = false) := by
  simp only [isPlain, Bool.and_eq_true, decide_eq_true_eq, Bool.or_eq_true, Bool.not_eq_true', and_assoc]

section Values

/-! #### What a value stands for -/

/-- One character of a value between double quotes: what is added to its content, and the reference behind it. -/
def valueStep (returned : Bool) (reference : Option (List Char)) (char : Char) :
    Option (List Char × Option (List Char)) :=
  if isChar char = false then none
  else if char = '\n' ∧ returned = true then some ([], reference)
  else
    match reference with
    | none =>
      if State.normalize char = '<' then none
      else if State.normalize char = '&' then some ([], some [])
      else if isSpace (State.normalize char) then some ([' '], none)
      else some ([State.normalize char], none)
    | some reference =>
      if State.normalize char = ';' then (decodeReference reference).map fun decoded => ([decoded], none)
      else if isNameChar (State.normalize char) ∨ State.normalize char = '#' then
        some ([], some (reference ++ [State.normalize char]))
      else none

/-- What is read of a value that is written as a text, and the reference in which the text ends. -/
def readValue : Bool → Option (List Char) → List Char → Option (List Char × Option (List Char))
  | _, reference, [] => some ([], reference)
  | returned, reference, char :: text =>
    (valueStep returned reference char).bind fun first =>
      (readValue (char = '\r') first.2 text).map fun rest => (first.1 ++ rest.1, rest.2)

/-- **The value of an attribute** that is written as a text between double quotes. -/
def quotedValue (text : List Char) : Option (List Char) :=
  if '"' ∈ text then none
  else
    match readValue false none text with
    | some (content, none) => some content
    | _ => none

theorem quotedValue_eq_some {text value : List Char} (is : quotedValue text = some value) :
    '"' ∉ text ∧ readValue false none text = some (value, none) := by
  unfold quotedValue at is
  split_ifs at is with quoted
  refine ⟨quoted, ?_⟩
  split at is
  · next content read => rw [read, Option.some.inj is]
  · cases is

/-- A character of the content: nothing is added, it stands for itself, or it is white space. -/
theorem valueStep_cases {returned : Bool} {char : Char} {read : List Char × Option (List Char)}
    (stepped : valueStep returned none char = some read) (notQuote : char ≠ '"') :
    read.1 = [] ∨ read = ([char], none) ∧ isPlain char = true ∨ read.1 = [' '] ∧ char ≠ ' ' := by
  unfold valueStep at stepped
  dsimp only at stepped
  split_ifs at stepped with illegal line tag reference space
  · exact Or.inl (Option.some.inj stepped ▸ rfl)
  · exact Or.inl (Option.some.inj stepped ▸ rfl)
  · have legal := Bool.eq_true_of_not_eq_false illegal
    obtain rfl := Option.some.inj stepped
    by_cases blank : char = ' '
    · subst blank
      exact Or.inr (Or.inl ⟨rfl, by decide⟩)
    · exact Or.inr (Or.inr ⟨rfl, blank⟩)
  · have legal := Bool.eq_true_of_not_eq_false illegal
    have same : State.normalize char = char := if_neg fun return' => space (by subst return'; rfl)
    rw [same] at tag reference space stepped
    exact Or.inr (Or.inl ⟨(Option.some.inj stepped).symm,
      isPlain_iff.mpr ⟨legal, notQuote, tag, reference, Or.inr (Bool.eq_false_of_not_eq_true space)⟩⟩)

theorem valueStep_length {returned : Bool} {reference : Option (List Char)} {char : Char}
    {read : List Char × Option (List Char)} (stepped : valueStep returned reference char = some read) :
    read.1.length ≤ 1 := by
  unfold valueStep at stepped
  cases reference with
  | none =>
    dsimp only at stepped
    split_ifs at stepped
    all_goals exact Option.some.inj stepped ▸ by simp
  | some reference =>
    dsimp only at stepped
    split_ifs at stepped
    · exact Option.some.inj stepped ▸ Nat.zero_le _
    · obtain ⟨decoded, -, rfl⟩ := Option.map_eq_some_iff.mp stepped
      exact le_rfl
    · exact Option.some.inj stepped ▸ Nat.zero_le _

/-- **What is read of a value** is no longer than what is written, and if it is the same, it is plain. -/
theorem readValue_spec (text : List Char) : ∀ {returned : Bool} {reference : Option (List Char)}
    {read : List Char × Option (List Char)}, readValue returned reference text = some read →
    read.1.length ≤ text.length ∧
      (reference = none → '"' ∉ text → read.1 = text → ∀ char ∈ text, isPlain char = true) := by
  induction text with
  | nil =>
    intro returned reference read is
    exact ⟨Option.some.inj is ▸ le_rfl, fun _ _ _ char member => absurd member List.not_mem_nil⟩
  | cons char text ih =>
    intro returned reference read is
    obtain ⟨first, stepped, is⟩ := Option.bind_eq_some_iff.mp is
    obtain ⟨rest, later, rfl⟩ := Option.map_eq_some_iff.mp is
    obtain ⟨bound, plain⟩ := ih later
    have one := valueStep_length stepped
    refine ⟨by rw [List.length_append, List.length_cons]; omega, ?_⟩
    rintro rfl free same
    rw [List.mem_cons, not_or] at free
    rcases valueStep_cases stepped (Ne.symm free.1) with nothing | ⟨rfl, here⟩ | ⟨blank, other⟩
    · rw [nothing, List.nil_append] at same
      rw [same, List.length_cons] at bound
      omega
    · exact List.forall_mem_cons.mpr ⟨here, plain rfl free.2 (List.cons.inj same).2⟩
    · rw [blank] at same
      exact absurd (List.cons.inj same).1.symm other

/-- **A text that begins in a reference** gives no more than if it does not. -/
theorem length_le_of_reference (text : List Char) : ∀ {returned : Bool} {reference : List Char}
    {read value : List Char × Option (List Char)}, readValue returned (some reference) text = some read →
    readValue returned none text = some value → read.1.length ≤ value.1.length := by
  induction text with
  | nil =>
    intro returned reference read value isRead _
    exact Option.some.inj isRead ▸ Nat.zero_le _
  | cons char text ih =>
    intro returned reference read value isRead isValue
    obtain ⟨first, stepped, isRead⟩ := Option.bind_eq_some_iff.mp isRead
    obtain ⟨rest, later, rfl⟩ := Option.map_eq_some_iff.mp isRead
    obtain ⟨first', stepped', isValue⟩ := Option.bind_eq_some_iff.mp isValue
    obtain ⟨rest', later', rfl⟩ := Option.map_eq_some_iff.mp isValue
    rw [List.length_append, List.length_append]
    unfold valueStep at stepped stepped'
    dsimp only at stepped stepped'
    split_ifs at stepped with illegal line semicolon goesOn
    · rw [if_neg illegal, if_pos line] at stepped'
      obtain rfl := Option.some.inj stepped
      obtain rfl := Option.some.inj stepped'
      exact Nat.add_le_add_left (ih later later') _
    · -- the reference ends, and both go on in the content
      obtain ⟨decoded, -, rfl⟩ := Option.map_eq_some_iff.mp stepped
      rw [if_neg illegal, if_neg line, semicolon] at stepped'
      obtain rfl := Option.some.inj stepped'
      exact (congrArg (fun read => 1 + read.1.length) (Option.some.inj (later.symm.trans later'))).le
    · obtain rfl := Option.some.inj stepped
      have notTag : State.normalize char ≠ '<' := by
        rintro tag
        rw [tag] at goesOn
        exact absurd goesOn (by decide)
      have notReference : State.normalize char ≠ '&' := by
        rintro reference'
        rw [reference'] at goesOn
        exact absurd goesOn (by decide)
      have notSpace : isSpace (State.normalize char) = false := by
        by_contra space
        have blank : State.normalize char = ' ' ∨ State.normalize char = '\t' ∨ State.normalize char = '\n' ∨
            State.normalize char = '\r' := by
          have all := Bool.eq_true_of_not_eq_false space
          simp only [isSpace, Bool.or_eq_true, decide_eq_true_eq, or_assoc] at all
          exact all
        rcases blank with is | is | is | is
        all_goals
          rw [is] at goesOn
          exact absurd goesOn (by decide)
      rw [if_neg illegal, if_neg line, if_neg notTag, if_neg notReference, notSpace] at stepped'
      obtain rfl := Option.some.inj stepped'
      calc ([] : List Char).length + rest.1.length = rest.1.length := Nat.zero_add _
        _ ≤ rest'.1.length := ih later later'
        _ ≤ [State.normalize char].length + rest'.1.length := Nat.le_add_left _ _

/-- The characters of a value that follow a character other than a line feed. -/
theorem readValue_append (front : List Char) {char : Char} (text : List Char) (notLine : char ≠ '\n') :
    ∀ {returned : Bool} {reference : Option (List Char)},
    readValue returned reference (front ++ char :: text) = (readValue returned reference front).bind fun read =>
      (readValue false read.2 (char :: text)).map fun rest => (read.1 ++ rest.1, rest.2) := by
  induction front with
  | nil =>
    intro returned reference
    have same : valueStep returned reference char = valueStep false reference char := by
      unfold valueStep
      rw [if_neg fun line : char = '\n' ∧ returned = true => notLine line.1,
        if_neg fun line : char = '\n' ∧ false = true => notLine line.1]
    simp only [List.nil_append, readValue, same, Option.bind_some, Prod.mk.eta, Option.map_id']
  | cons first front ih =>
    intro returned reference
    rw [List.cons_append, readValue, readValue]
    cases valueStep returned reference first with
    | none => rfl
    | some read =>
      rw [Option.bind_some, Option.bind_some, ih]
      cases readValue (first = '\r') read.2 front with
      | none => rfl
      | some more =>
        rw [Option.bind_some, Option.map_some, Option.bind_some, Option.map_map]
        congr 1
        funext rest
        exact congrArg (·, rest.2) (List.append_assoc _ _ _).symm

/-- A plain value is read as it is written. -/
theorem readValue_plain (text : List Char) (plain : ∀ char ∈ text, isPlain char = true) :
    readValue false none text = some (text, none) := by
  induction text with
  | nil => rfl
  | cons char text ih =>
    obtain ⟨here, later⟩ := List.forall_mem_cons.mp plain
    obtain ⟨legal, -, notTag, notReference, blank⟩ := isPlain_iff.mp here
    have notReturn : char ≠ '\r' := by
      rintro rfl
      exact absurd blank (by decide)
    have normal : State.normalize char = char := if_neg notReturn
    have stepped : valueStep false none char = some ([char], none) := by
      unfold valueStep
      rw [if_neg (by rw [legal]; decide), if_neg fun line => Bool.false_ne_true line.2, normal]
      dsimp only
      rw [if_neg notTag, if_neg notReference]
      rcases blank with rfl | black
      · rfl
      · rw [black]
        rfl
    rw [readValue, stepped, Option.bind_some, decide_eq_false notReturn, ih later]
    rfl

theorem readValue_hash (text : List Char) :
    readValue false none ('#' :: text) = (readValue false none text).map fun rest => ('#' :: rest.1, rest.2) := rfl

/-- **A fragment does not change an address**: if a value stands for an address, `#` and what the fragment stands for,
the address is plain. -/
theorem plain_of_fragment {front text value : List Char} (free : '"' ∉ front)
    (whole : readValue false none (front ++ '#' :: text) = some (front ++ '#' :: value, none))
    (fragment : readValue false none text = some (value, none)) : ∀ char ∈ front, isPlain char = true := by
  rw [readValue_append front text (by decide)] at whole
  obtain ⟨⟨content, reference⟩, read, whole⟩ := Option.bind_eq_some_iff.mp whole
  obtain ⟨rest, behind, whole⟩ := Option.map_eq_some_iff.mp whole
  obtain ⟨bound, plain⟩ := readValue_spec front read
  dsimp only at bound plain behind whole
  cases reference with
  | none =>
    have mark : readValue false none ('#' :: text) = some ('#' :: value, none) := by
      rw [readValue_hash, fragment]
      rfl
    obtain rfl := Option.some.inj (behind.symm.trans mark)
    exact plain rfl free (List.append_cancel_right (Prod.mk.inj whole).1)
  | some reference =>
    -- the fragment completes the reference, and what is read is too short
    obtain ⟨more, later, rfl⟩ := Option.map_eq_some_iff.mp
      (show ((readValue false (some (reference ++ ['#'])) text).map fun rest => ([] ++ rest.1, rest.2)) = some rest from behind)
    have short := length_le_of_reference text later fragment
    have length := congrArg List.length (Prod.mk.inj whole).1
    simp only [List.length_append, List.length_cons, List.nil_append] at length short
    omega

end Values

/-! #### The machine in a value -/

section InValue

variable {name : List Char} {attributes : Attributes} {key : List Char} {stack : List (List Char)} {rooted : Bool}
  {events : List (Nat × Event Char)}

/-- The machine in a value between double quotes, or in a reference in it. -/
def Lex.inValue (name : List Char) (attributes : Attributes) (key content : List Char) : Option (List Char) → Lex
  | none => .value name attributes key '"' content
  | some reference => .valueReference name attributes key '"' content reference

theorem step_inValue {content : List Char} {reference : Option (List Char)} {returned : Bool} {char : Char}
    (notQuote : char ≠ '"') :
    step ⟨.inValue name attributes key content reference, returned, stack, rooted, events⟩ char =
      (valueStep returned reference char).map fun read =>
        ⟨.inValue name attributes key (content ++ read.1) read.2, char = '\r', stack, rooted, events⟩ := by
  have notQuote' : State.normalize char ≠ '"' := by
    unfold State.normalize
    split_ifs
    · decide
    · exact notQuote
  unfold step valueStep
  by_cases illegal : isChar char = false
  · rw [if_pos illegal, if_pos illegal]
    rfl
  · rw [if_neg illegal, if_neg illegal]
    by_cases line : char = '\n' ∧ returned = true
    · rw [if_pos line, if_pos line, line.1]
      simp
    · rw [if_neg line, if_neg line]
      cases reference with
      | none =>
        unfold advance scan
        dsimp only [Lex.inValue]
        rw [if_neg notQuote']
        split_ifs
        all_goals simp [act]
      | some reference =>
        unfold advance scan
        dsimp only [Lex.inValue]
        split_ifs
        · cases decodeReference reference
          all_goals simp [act]
        all_goals simp [act]

/-- **In a value the machine reads the value.** -/
theorem run_inValue (text : List Char) : ∀ {content : List Char} {reference : Option (List Char)} {returned : Bool},
    '"' ∉ text → ∃ returned', run ⟨.inValue name attributes key content reference, returned, stack, rooted, events⟩ text =
      (readValue returned reference text).map fun read =>
        ⟨.inValue name attributes key (content ++ read.1) read.2, returned', stack, rooted, events⟩ := by
  induction text with
  | nil =>
    intro content reference returned _
    refine ⟨returned, ?_⟩
    rw [run_nil, readValue, Option.map_some, List.append_nil]
  | cons char text ih =>
    intro content reference returned free
    rw [List.mem_cons, not_or] at free
    rw [run_cons, step_inValue (Ne.symm free.1), readValue]
    cases valueStep returned reference char with
    | none => exact ⟨returned, rfl⟩
    | some first =>
      obtain ⟨returned', ran⟩ := @ih (content ++ first.1) first.2 (char = '\r') free.2
      refine ⟨returned', ?_⟩
      rw [Option.map_some, Option.bind_some, ran, Option.bind_some, Option.map_map]
      congr 1
      funext rest
      rw [Function.comp_apply, List.append_assoc]

/-- **A plain value** is read as it is written. -/
theorem run_plain (text : List Char) :
    ∀ {content : List Char}, (∀ char ∈ text, isPlain char = true) →
    run ⟨.value name attributes key '"' content, false, stack, rooted, events⟩ text =
      some ⟨.value name attributes key '"' (content ++ text), false, stack, rooted, events⟩ := by
  induction text with
  | nil =>
    intro content _
    rw [run_nil, List.append_nil]
  | cons char rest ih =>
    intro content plain
    obtain ⟨here, later⟩ := List.forall_mem_cons.mp plain
    obtain ⟨legal, notQuote, notTag, notReference, blank⟩ := isPlain_iff.mp here
    have notReturn : char ≠ '\r' := by
      rintro rfl
      exact absurd blank (by decide)
    have scanned : scan (!stack.isEmpty) (.value name attributes key '"' content) (State.normalize char) =
        some (.value name attributes key '"' (content ++ [char]), .silent) := by
      rw [State.normalize, if_neg notReturn]
      unfold scan
      dsimp only
      rw [if_neg notTag, if_neg notQuote, if_neg notReference]
      rcases blank with rfl | black
      · rfl
      · rw [black]
        rfl
    rw [run_cons, @step_of_scan ⟨.value name attributes key '"' content, false, stack, rooted, events⟩ _ char _ _ legal
      (fun line => Bool.false_ne_true line.2) scanned rfl, Option.bind_some]
    dsimp only
    rw [decide_eq_false notReturn, ih later, List.append_assoc, List.singleton_append]

end InValue

/-! ### Texts in elements -/

/-- `]]>`, which must not stand in a text. -/
def sectionEnd : List Char := [']', ']', '>']

theorem not_sectionEnd {text : List Char} (noBracket : '>' ∉ text) : ¬ sectionEnd <:+: text := fun infix' =>
  noBracket (infix'.subset (by decide))

/-- A character that stands for itself in a text. -/
def IsText (char : Char) : Prop := isChar char = true ∧ char ≠ '<' ∧ char ≠ '&' ∧ char ≠ '\r'

/-- **A text without markup** is read as it is written. -/
theorem run_text {bottom : List Char} {stack : List (List Char)} {rooted : Bool} (text : List Char) :
    ∀ {brackets : Nat} {events : List (Nat × Event Char)}, brackets ≤ 2 → (∀ char ∈ text, IsText char) →
    ¬ sectionEnd <:+: List.replicate brackets ']' ++ text → ∃ brackets', brackets' ≤ 2 ∧
      run ⟨.text brackets, false, bottom :: stack, rooted, events⟩ text =
        some ⟨.text brackets', false, bottom :: stack, rooted,
          events ++ text.map fun char => (stack.length + 1, .characters [char])⟩ := by
  induction text with
  | nil =>
    intro brackets events few _ _
    refine ⟨brackets, few, ?_⟩
    rw [run_nil, List.map_nil, List.append_nil]
  | cons char rest ih =>
    intro brackets events few isText noEnd
    obtain ⟨⟨legal, notTag, notReference, notReturn⟩, later⟩ := List.forall_mem_cons.mp isText
    have normal : State.normalize char = char := if_neg notReturn
    have goesOn : ∀ {next : Nat}, next ≤ 2 →
        scan true (.text brackets) char = some (.text next, .characters [char]) →
        ¬ sectionEnd <:+: List.replicate next ']' ++ rest → ∃ brackets', brackets' ≤ 2 ∧
          run ⟨.text brackets, false, bottom :: stack, rooted, events⟩ (char :: rest) =
            some ⟨.text brackets', false, bottom :: stack, rooted,
              events ++ (char :: rest).map fun char => (stack.length + 1, .characters [char])⟩ := by
      intro next few scanned noEnd
      obtain ⟨brackets', few', ran⟩ := @ih next (events ++ [(stack.length + 1, .characters [char])]) few later noEnd
      refine ⟨brackets', few', ?_⟩
      rw [run_cons, @step_of_scan ⟨.text brackets, false, bottom :: stack, rooted, events⟩ _ char _ _ legal
        (fun line => Bool.false_ne_true line.2) (by rw [normal]; exact scanned) rfl, Option.bind_some]
      dsimp only
      rw [decide_eq_false notReturn]
      refine ran.trans ?_
      rw [List.append_assoc, List.singleton_append, List.map_cons]
    by_cases bracket : char = ']'
    · subst bracket
      refine @goesOn (min (brackets + 1) 2) (min_le_right _ _) rfl fun found => noEnd ?_
      have longer : List.replicate (min (brackets + 1) 2) ']' ++ rest <:+: List.replicate brackets ']' ++ ']' :: rest := by
        have shift : List.replicate brackets ']' ++ ']' :: rest = List.replicate (brackets + 1) ']' ++ rest := by
          rw [List.replicate_succ', List.append_assoc, List.singleton_append]
        rw [shift]
        refine List.IsSuffix.isInfix ⟨List.replicate (brackets + 1 - min (brackets + 1) 2) ']', ?_⟩
        rw [← List.append_assoc, List.replicate_append_replicate]
        congr 2
        omega
      exact found.trans longer
    · have noSection : ¬ (char = '>' ∧ brackets = 2) := by
        rintro ⟨rfl, rfl⟩
        exact noEnd ⟨[], rest, rfl⟩
      refine @goesOn 0 (Nat.zero_le _) ?_ fun found => noEnd ?_
      · unfold scan
        dsimp only
        rw [if_neg notTag, if_pos rfl, if_neg notReference, if_neg bracket, if_neg noSection]
      · refine found.trans (List.IsSuffix.isInfix ⟨List.replicate brackets ']' ++ [char], ?_⟩)
        rw [List.append_assoc]
        rfl

/-! ### Tags -/

/-- The name of a start tag that is being read, with the attributes so far. -/
def Lex.begun : Lex → Option (List Char × Attributes)
  | .tag name attributes _ | .attributeName name attributes _ | .equals name attributes _ | .quote name attributes _
  | .value name attributes _ _ _ | .valueReference name attributes _ _ _ _ | .slash name attributes =>
    some (name, attributes)
  | _ => none

/-- A start tag goes on, or it is complete. -/
theorem scan_begun {inside : Bool} {lex lex' : Lex} {char : Char} {signal : Signal} {name : List Char}
    {attributes : Attributes} (begun : lex.begun = some (name, attributes))
    (scanned : scan inside lex char = some (lex', signal)) :
    (signal = .silent ∧ ∃ more, lex'.begun = some (name, attributes ++ more)) ∨
      signal = .start name attributes ∨ signal = .empty name attributes := by
  have goesOn : ∀ {next : Lex} {more : Attributes}, some (next, Signal.silent) = some (lex', signal) →
      next.begun = some (name, attributes ++ more) →
      (signal = .silent ∧ ∃ more, lex'.begun = some (name, attributes ++ more)) ∨
        signal = .start name attributes ∨ signal = .empty name attributes := by
    intro next more same next_begun
    obtain ⟨rfl, rfl⟩ := Prod.mk.inj (Option.some.inj same)
    exact Or.inl ⟨rfl, more, next_begun⟩
  have stays : ∀ {next : Lex}, some (next, Signal.silent) = some (lex', signal) → next.begun = some (name, attributes) →
      (signal = .silent ∧ ∃ more, lex'.begun = some (name, attributes ++ more)) ∨
        signal = .start name attributes ∨ signal = .empty name attributes := fun same next_begun =>
    @goesOn _ [] same (by rw [next_begun, List.append_nil])
  unfold scan at scanned
  cases lex with
  | tag name' attributes' spaced =>
    obtain ⟨rfl, rfl⟩ := Prod.mk.inj (Option.some.inj begun)
    dsimp only at scanned
    split_ifs at scanned
    · exact stays scanned rfl
    · exact stays scanned rfl
    · exact Or.inr (Or.inl (Prod.mk.inj (Option.some.inj scanned)).2.symm)
    · exact stays scanned rfl
  | attributeName name' attributes' key =>
    obtain ⟨rfl, rfl⟩ := Prod.mk.inj (Option.some.inj begun)
    dsimp only at scanned
    split_ifs at scanned
    · exact stays scanned rfl
    · exact stays scanned rfl
    · exact stays scanned rfl
  | equals name' attributes' key =>
    obtain ⟨rfl, rfl⟩ := Prod.mk.inj (Option.some.inj begun)
    dsimp only at scanned
    split_ifs at scanned
    · exact stays scanned rfl
    · exact stays scanned rfl
  | quote name' attributes' key =>
    obtain ⟨rfl, rfl⟩ := Prod.mk.inj (Option.some.inj begun)
    dsimp only at scanned
    split_ifs at scanned
    · exact stays scanned rfl
    · exact stays scanned rfl
  | value name' attributes' key quote content =>
    obtain ⟨rfl, rfl⟩ := Prod.mk.inj (Option.some.inj begun)
    dsimp only at scanned
    split_ifs at scanned
    · exact goesOn scanned rfl
    · exact stays scanned rfl
    · exact stays scanned rfl
    · exact stays scanned rfl
  | valueReference name' attributes' key quote content reference =>
    obtain ⟨rfl, rfl⟩ := Prod.mk.inj (Option.some.inj begun)
    dsimp only at scanned
    split_ifs at scanned
    · obtain ⟨decoded, -, same⟩ := Option.map_eq_some_iff.mp scanned
      exact stays (congrArg some same) rfl
    · exact stays scanned rfl
  | slash name' attributes' =>
    obtain ⟨rfl, rfl⟩ := Prod.mk.inj (Option.some.inj begun)
    dsimp only at scanned
    split_ifs at scanned
    exact Or.inr (Or.inr (Prod.mk.inj (Option.some.inj scanned)).2.symm)
  | text | textReference | markup | startName | endName | endSpace | declaration | comment | cdata | target | instruction
  | instructionEnd => cases begun

/-- A signal does not move the machine in the text. -/
theorem act_lex {self next : State} {signal : Signal} (acted : self.act signal = some next) : next.lex = self.lex := by
  unfold act at acted
  cases signal with
  | silent => exact Option.some.inj acted ▸ rfl
  | characters chunk => exact Option.some.inj acted ▸ rfl
  | start name attributes =>
    dsimp only at acted
    split_ifs at acted
    exact Option.some.inj acted ▸ rfl
  | empty name attributes =>
    dsimp only at acted
    split_ifs at acted
    exact Option.some.inj acted ▸ rfl
  | close name =>
    dsimp only at acted
    split at acted
    · cases acted
    · split_ifs at acted
      exact Option.some.inj acted ▸ rfl

/-- What has been reported stays. -/
theorem act_events {self next : State} {signal : Signal} (acted : self.act signal = some next) :
    ∃ more, next.events = self.events ++ more := by
  unfold act at acted
  cases signal with
  | silent => exact ⟨[], by rw [← Option.some.inj acted, List.append_nil]⟩
  | characters chunk => exact ⟨_, by rw [← Option.some.inj acted]⟩
  | start name attributes =>
    dsimp only at acted
    split_ifs at acted
    exact ⟨_, by rw [← Option.some.inj acted]⟩
  | empty name attributes =>
    dsimp only at acted
    split_ifs at acted
    exact ⟨_, by rw [← Option.some.inj acted]⟩
  | close name =>
    dsimp only at acted
    split at acted
    · cases acted
    · split_ifs at acted
      exact ⟨_, by rw [← Option.some.inj acted]⟩

theorem run_events (text : List Char) : ∀ {self final : State}, run self text = some final →
    ∃ more, final.events = self.events ++ more := by
  induction text with
  | nil => exact fun ran => ⟨[], by rw [← Option.some.inj ran, List.append_nil]⟩
  | cons char rest ih =>
    intro self final ran
    obtain ⟨next, stepped, later⟩ := Option.bind_eq_some_iff.mp ran
    obtain ⟨more, grown⟩ := ih later
    rcases (step_cases stepped).2 with ⟨-, rfl⟩ | ⟨-, lex, signal, acted, -, done, rfl⟩
    · exact ⟨more, grown⟩
    · obtain ⟨here, first⟩ := act_events done
      exact ⟨here ++ more, by rw [grown, ← List.append_assoc, ← first]⟩

/-- **A start tag that has been begun** is reported before anything else, with the attributes so far. -/
theorem run_tag (text : List Char) {name : List Char} : ∀ {self final : State} {attributes : Attributes},
    run self text = some final → self.lex.begun = some (name, attributes) → final.lex.begun = none →
    ∃ more others, final.events =
      self.events ++ (self.stack.length, .startElement name (attributes ++ more)) :: others := by
  induction text with
  | nil =>
    intro self final attributes ran begun complete
    rw [← Option.some.inj ran, begun] at complete
    cases complete
  | cons char rest ih =>
    intro self final attributes ran begun complete
    obtain ⟨next, stepped, later⟩ := Option.bind_eq_some_iff.mp ran
    rcases (step_cases stepped).2 with ⟨-, rfl⟩ | ⟨-, lex, signal, acted, scanned, done, rfl⟩
    · exact @ih { self with returned := false } final attributes later begun complete
    · rcases scan_begun begun scanned with ⟨rfl, more, begun'⟩ | rfl | rfl
      · obtain rfl := Option.some.inj done
        obtain ⟨more', others, reported⟩ := ih later begun' complete
        exact ⟨more ++ more', others, by rw [reported, List.append_assoc]⟩
      · obtain ⟨others, grown⟩ := run_events rest later
        unfold act at done
        dsimp only at done
        split_ifs at done
        refine ⟨[], others, ?_⟩
        rw [grown, ← Option.some.inj done, List.append_nil, List.append_assoc, List.singleton_append]
      · obtain ⟨others, grown⟩ := run_events rest later
        unfold act at done
        dsimp only at done
        split_ifs at done
        refine ⟨[], (self.stack.length, .endElement name) :: others, ?_⟩
        rw [grown, ← Option.some.inj done, List.append_nil, List.append_assoc, List.cons_append, List.cons_append,
          List.nil_append]

/-- **The value of an attribute** is reported with its tag. -/
theorem value_of_run {name : List Char} {attributes : Attributes} {key : List Char} {stack : List (List Char)}
    {rooted : Bool} {events : List (Nat × Event Char)} {text rest : List Char} {final : State} (free : '"' ∉ text)
    (ran : run ⟨.value name attributes key '"' [], false, stack, rooted, events⟩ (text ++ '"' :: rest) = some final)
    (complete : final.lex.begun = none) : ∃ value more others, readValue false none text = some (value, none) ∧
      final.events = events ++ (stack.length, .startElement name (attributes ++ [(key, value)] ++ more)) :: others := by
  rw [run_append] at ran
  obtain ⟨behind, inText, ran⟩ := Option.bind_eq_some_iff.mp ran
  obtain ⟨next, stepped, later⟩ := Option.bind_eq_some_iff.mp ran
  obtain ⟨returned, isRun⟩ := @run_inValue name attributes key stack rooted events text [] none false free
  obtain ⟨⟨value, reference⟩, read, rfl⟩ := Option.map_eq_some_iff.mp (isRun.symm.trans inText)
  obtain ⟨-, ⟨⟨line, -⟩, -⟩ | ⟨-, lex, signal, acted, scanned, done, rfl⟩⟩ := step_cases stepped
  · exact absurd line (by decide)
  · have normal : State.normalize '"' = '"' := rfl
    rw [normal] at scanned
    cases reference with
    | none =>
      unfold scan at scanned
      dsimp only [Lex.inValue] at scanned
      rw [if_neg (by decide), if_pos rfl] at scanned
      split_ifs at scanned
      obtain ⟨rfl, rfl⟩ := Prod.mk.inj (Option.some.inj scanned)
      obtain rfl := Option.some.inj done
      obtain ⟨more, others, reported⟩ := run_tag rest later rfl complete
      exact ⟨value, more, others, read, reported⟩
    | some reference =>
      have fails : scan (!stack.isEmpty) (.valueReference name attributes key '"' ([] ++ value) reference) '"' = none := rfl
      dsimp only [Lex.inValue] at scanned
      rw [fails] at scanned
      cases scanned

/-! ### Comments, sections and instructions -/

/-- Inside of a comment, a section or an instruction, and not near its end. -/
def Swallows (lex : Lex) : Prop := lex = .comment 0 ∨ lex = .cdata 0 ∨ lex = .instruction false

/-- A `<` is markup in a text, or it is swallowed. -/
theorem scan_lt {inside : Bool} {lex lex' : Lex} {signal : Signal} (scanned : scan inside lex '<' = some (lex', signal)) :
    ((∃ brackets, lex = .text brackets) ∧ lex' = .markup ∧ signal = .silent) ∨ Swallows lex' := by
  unfold scan at scanned
  cases lex with
  | text brackets =>
    obtain ⟨rfl, rfl⟩ := Prod.mk.inj (Option.some.inj scanned)
    exact Or.inl ⟨⟨brackets, rfl⟩, rfl, rfl⟩
  | comment dashes =>
    dsimp only at scanned
    rw [if_neg (by decide : ¬ '<' = '>'), if_neg (by decide : ¬ '<' = '-')] at scanned
    split at scanned
    · cases scanned
    · exact Or.inr (Or.inl (Prod.mk.inj (Option.some.inj scanned)).1.symm)
  | cdata brackets =>
    obtain ⟨rfl, rfl⟩ := Prod.mk.inj (Option.some.inj scanned)
    exact Or.inr (Or.inr (Or.inl rfl))
  | instruction question =>
    obtain ⟨rfl, rfl⟩ := Prod.mk.inj (Option.some.inj scanned)
    exact Or.inr (Or.inr (Or.inr rfl))
  | declaration front =>
    have member : '<' ∈ front ++ ['<'] := List.mem_append_right _ List.mem_cons_self
    have notComment : '<' ∉ commentMark := by decide
    have notSection : '<' ∉ cdataMark := by decide
    dsimp only [scanDeclaration] at scanned
    split_ifs at scanned with comment section' front'
    · exact absurd (comment ▸ member) notComment
    · exact absurd (section'.1 ▸ member) notSection
    · rcases front' with isFront | isFront
      · exact absurd (isFront.subset member) notComment
      · exact absurd (isFront.subset member) notSection
  | textReference | markup | startName | tag | attributeName | equals | quote | value | valueReference | slash | endName
  | endSpace | target | instructionEnd =>
    have notName : isNameChar '<' = false := by decide
    have notStart : isNameStart '<' = false := by decide
    have notSpace : isSpace '<' = false := by decide
    simp [notName, notStart, notSpace] at scanned

/-- What does not end a comment, section or instruction is swallowed. -/
theorem scan_swallows {inside : Bool} {lex lex' : Lex} {char : Char} {signal : Signal} (swallows : Swallows lex)
    (harmless : char ≠ '-' ∧ char ≠ ']' ∧ char ≠ '?') (scanned : scan inside lex char = some (lex', signal)) :
    Swallows lex' := by
  obtain ⟨notDash, notBracket, notQuestion⟩ := harmless
  unfold scan at scanned
  rcases swallows with rfl | rfl | rfl
  · dsimp only at scanned
    rw [if_neg (by decide), if_neg notDash] at scanned
    exact Or.inl (Prod.mk.inj (Option.some.inj scanned)).1.symm
  · dsimp only at scanned
    rw [if_neg fun both => absurd both.2 (by decide), if_neg notBracket] at scanned
    exact Or.inr (Or.inl (Prod.mk.inj (Option.some.inj scanned)).1.symm)
  · dsimp only at scanned
    rw [if_neg fun both => absurd both.2 (by decide), decide_eq_false notQuestion] at scanned
    exact Or.inr (Or.inr (Prod.mk.inj (Option.some.inj scanned)).1.symm)

/-- Behind a swallowed `<`, a text without such characters ends inside. -/
theorem run_swallows (text : List Char) : ∀ {self final : State}, run self text = some final → Swallows self.lex →
    (∀ char ∈ text, char ≠ '-' ∧ char ≠ ']' ∧ char ≠ '?') → Swallows final.lex := by
  induction text with
  | nil => exact fun ran swallows _ => Option.some.inj ran ▸ swallows
  | cons char rest ih =>
    intro self final ran swallows harmless
    obtain ⟨here, harmless⟩ := List.forall_mem_cons.mp harmless
    obtain ⟨next, stepped, later⟩ := Option.bind_eq_some_iff.mp ran
    refine ih later ?_ harmless
    rcases (step_cases stepped).2 with ⟨-, rfl⟩ | ⟨-, lex, signal, acted, scanned, done, rfl⟩
    · exact swallows
    · have normal : State.normalize char ≠ '-' ∧ State.normalize char ≠ ']' ∧ State.normalize char ≠ '?' := by
        unfold State.normalize
        split_ifs
        · decide
        · exact here
      have moved : acted.lex = lex := act_lex done
      show Swallows acted.lex
      rw [moved]
      exact scan_swallows swallows normal scanned

/-! ### Tags that are written -/

/-- `Name`. -/
def IsName (name : List Char) : Prop :=
  ∃ first rest, name = first :: rest ∧ isNameStart first = true ∧ ∀ char ∈ rest, isNameChar char = true

theorem inRanges_mono {ranges wider : List (Nat × Nat)}
    (within : ∀ range ∈ ranges, ∃ other ∈ wider, other.1 ≤ range.1 ∧ range.2 ≤ other.2) {char : Char}
    (member : inRanges ranges char = true) : inRanges wider char = true := by
  unfold inRanges at member ⊢
  obtain ⟨range, among, bounds⟩ := List.any_eq_true.mp member
  obtain ⟨low, high⟩ := Bool.and_eq_true_iff.mp bounds
  obtain ⟨other, among', lower, upper⟩ := within range among
  refine List.any_eq_true.mpr ⟨other, among', Bool.and_eq_true_iff.mpr ⟨?_, ?_⟩⟩
  · exact decide_eq_true (le_trans lower (of_decide_eq_true low))
  · exact decide_eq_true (le_trans (of_decide_eq_true high) upper)

/-- A character of a name is legal, and no line end. -/
theorem isChar_of_isNameChar {char : Char} (isName : isNameChar char = true) :
    isChar char = true ∧ char ≠ '\n' ∧ char ≠ '\r' := by
  refine ⟨?_, ?_, ?_⟩
  · rcases Bool.or_eq_true_iff.mp isName with start | other
    · exact inRanges_mono (by decide) start
    · exact inRanges_mono (by decide) other
  · rintro rfl
    exact absurd isName (by decide)
  · rintro rfl
    exact absurd isName (by decide)

theorem isNameChar_of_isNameStart {char : Char} (start : isNameStart char = true) : isNameChar char = true :=
  Bool.or_eq_true_iff.mpr (Or.inl start)

section Written

variable {lex lex' : Lex} {returned rooted : Bool} {stack : List (List Char)} {events : List (Nat × Event Char)}

/-- A character that completes nothing. -/
theorem step_silent {char : Char} (legal : isChar char = true ∧ char ≠ '\n' ∧ char ≠ '\r')
    (scanned : scan (!stack.isEmpty) lex char = some (lex', .silent)) :
    step ⟨lex, returned, stack, rooted, events⟩ char = some ⟨lex', false, stack, rooted, events⟩ := by
  obtain ⟨legal, notLine, notReturn⟩ := legal
  have normal : State.normalize char = char := if_neg notReturn
  rw [@step_of_scan ⟨lex, returned, stack, rooted, events⟩ _ char lex' .silent legal (fun line => notLine line.1)
    (by rw [normal]; exact scanned) rfl]
  dsimp only
  rw [decide_eq_false notReturn]

/-- The characters of a name are collected. -/
theorem run_collect {lexOf : List Char → Lex} (collects : ∀ front char, front ≠ [] → isNameChar char = true →
    scan (!stack.isEmpty) (lexOf front) char = some (lexOf (front ++ [char]), .silent)) (text : List Char) :
    ∀ {front : List Char}, front ≠ [] → (∀ char ∈ text, isNameChar char = true) →
      run ⟨lexOf front, false, stack, rooted, events⟩ text = some ⟨lexOf (front ++ text), false, stack, rooted, events⟩ := by
  induction text with
  | nil =>
    intro front _ _
    rw [run_nil, List.append_nil]
  | cons char rest ih =>
    intro front nonempty isName
    obtain ⟨here, later⟩ := List.forall_mem_cons.mp isName
    rw [run_cons, step_silent (isChar_of_isNameChar here) (collects front char nonempty here), Option.bind_some,
      ih (List.append_ne_nil_of_left_ne_nil nonempty _) later, List.append_assoc, List.singleton_append]

/-- The beginning of a start tag. -/
theorem run_open {name : List Char} (isName : IsName name) (brackets : Nat) :
    run ⟨.text brackets, returned, stack, rooted, events⟩ ('<' :: name ++ [' ']) =
      some ⟨.tag name [] true, false, stack, rooted, events⟩ := by
  obtain ⟨first, rest, rfl, start, others⟩ := isName
  have opens : scan (!stack.isEmpty) (.text brackets) '<' = some (.markup, .silent) := rfl
  have begins : scan (!stack.isEmpty) .markup first = some (.startName [first], .silent) := by
    have slash : first ≠ '/' := fun same => absurd (same ▸ start) (by decide)
    have bang : first ≠ '!' := fun same => absurd (same ▸ start) (by decide)
    have question : first ≠ '?' := fun same => absurd (same ▸ start) (by decide)
    unfold scan
    dsimp only
    rw [if_neg slash, if_neg bang, if_neg question, if_pos start]
  have collects : ∀ front char, front ≠ [] → isNameChar char = true →
      scan (!stack.isEmpty) (.startName front) char = some (.startName (front ++ [char]), .silent) :=
    fun front char _ isName => if_pos isName
  have ends : scan (!stack.isEmpty) (.startName (first :: rest)) ' ' = some (.tag (first :: rest) [] true, .silent) := rfl
  rw [List.cons_append, List.cons_append, run_cons, step_silent (by decide) opens, Option.bind_some, run_cons,
    step_silent (isChar_of_isNameChar (isNameChar_of_isNameStart start)) begins, Option.bind_some, run_append,
    run_collect collects rest (List.cons_ne_nil _ _) others, Option.bind_some, run_cons, List.singleton_append,
    step_silent (by decide) ends, Option.bind_some, run_nil]

/-- The name of an attribute, up to its value. -/
theorem run_key {name key : List Char} {attributes : Attributes} (isName : IsName key) :
    run ⟨.tag name attributes true, false, stack, rooted, events⟩ (key ++ ['=', '"']) =
      some ⟨.value name attributes key '"' [], false, stack, rooted, events⟩ := by
  obtain ⟨first, rest, rfl, start, others⟩ := isName
  have begins : scan (!stack.isEmpty) (.tag name attributes true) first =
      some (.attributeName name attributes [first], .silent) := by
    have space : isSpace first = false := by
      by_contra blank
      rw [Bool.not_eq_false] at blank
      unfold isSpace at blank
      simp only [Bool.or_eq_true, decide_eq_true_eq] at blank
      rcases blank with ((rfl | rfl) | rfl) | rfl <;> exact absurd start (by decide)
    have slash : first ≠ '/' := fun same => absurd (same ▸ start) (by decide)
    have bracket : first ≠ '>' := fun same => absurd (same ▸ start) (by decide)
    unfold scan
    dsimp only
    rw [space, if_neg Bool.false_ne_true, if_neg slash, if_neg bracket, start]
    rfl
  have collects : ∀ front char, front ≠ [] → isNameChar char = true →
      scan (!stack.isEmpty) (.attributeName name attributes front) char =
        some (.attributeName name attributes (front ++ [char]), .silent) :=
    fun front char _ isName => if_pos isName
  have equals : scan (!stack.isEmpty) (.attributeName name attributes (first :: rest)) '=' =
      some (.quote name attributes (first :: rest), .silent) := rfl
  have quote : scan (!stack.isEmpty) (.quote name attributes (first :: rest)) '"' =
      some (.value name attributes (first :: rest) '"' [], .silent) := rfl
  rw [List.cons_append, run_cons, step_silent (isChar_of_isNameChar (isNameChar_of_isNameStart start)) begins,
    Option.bind_some, run_append, run_collect collects rest (List.cons_ne_nil _ _) others, Option.bind_some, run_cons,
    List.singleton_append, step_silent (by decide) equals, Option.bind_some, run_cons, step_silent (by decide) quote,
    Option.bind_some, run_nil]

/-- The end of a value. -/
theorem step_quote {name key content : List Char} {attributes : Attributes} (new : key ∉ attributes.map Prod.fst) :
    step ⟨.value name attributes key '"' content, returned, stack, rooted, events⟩ '"' =
      some ⟨.tag name (attributes ++ [(key, content)]) false, false, stack, rooted, events⟩ := by
  have unseen : (attributes.any fun entry => entry.1 = key) = false := by
    refine List.any_eq_false.mpr fun entry member same => new ?_
    rw [← of_decide_eq_true same]
    exact List.mem_map_of_mem member
  refine step_silent (by decide) ?_
  unfold scan
  dsimp only
  rw [if_neg (by decide), if_pos rfl, unseen, if_neg Bool.false_ne_true]

/-- The attributes of a tag, as they are written. -/
def attributesText (attributes : Attributes) : List Char :=
  attributes.flatMap fun entry => entry.1 ++ ['=', '"'] ++ entry.2 ++ ['"', ' ']

/-- **Plain attributes** are read as they are written. -/
theorem run_attributes {name : List Char} (rest : Attributes) : ∀ {attributes : Attributes},
    (∀ entry ∈ rest, IsName entry.1 ∧ ∀ char ∈ entry.2, isPlain char = true) →
    ((attributes ++ rest).map Prod.fst).Nodup →
    run ⟨.tag name attributes true, false, stack, rooted, events⟩ (attributesText rest) =
      some ⟨.tag name (attributes ++ rest) true, false, stack, rooted, events⟩ := by
  induction rest with
  | nil =>
    intro attributes _ _
    rw [List.append_nil]
    rfl
  | cons entry rest ih =>
    intro attributes plain distinct
    obtain ⟨⟨isName, value⟩, later⟩ := List.forall_mem_cons.mp plain
    have new : entry.1 ∉ attributes.map Prod.fst := fun old => by
      rw [List.map_append] at distinct
      exact (List.nodup_append'.mp distinct).2.2 old (List.mem_map_of_mem List.mem_cons_self)
    have blank : step ⟨.tag name (attributes ++ [(entry.1, entry.2)]) false, false, stack, rooted, events⟩ ' ' =
        some ⟨.tag name (attributes ++ [(entry.1, entry.2)]) true, false, stack, rooted, events⟩ :=
      step_silent (by decide) rfl
    have behind := @ih (attributes ++ [entry]) later (by rw [List.append_assoc]; exact distinct)
    unfold attributesText
    rw [List.flatMap_cons, ← attributesText, List.append_assoc, List.append_assoc, List.append_assoc,
      ← List.append_assoc entry.1, run_append, run_key isName, Option.bind_some, run_append, run_plain _ value,
      Option.bind_some, List.nil_append, List.cons_append, run_cons, step_quote new, Option.bind_some, List.cons_append,
      run_cons, blank, Option.bind_some, List.nil_append, behind, List.append_assoc, List.singleton_append]

/-- The end of a start tag. -/
theorem step_startTag {name : List Char} {attributes : Attributes} (first : ¬ (stack = [] ∧ rooted = true)) :
    step ⟨.tag name attributes true, false, stack, rooted, events⟩ '>' =
      some ⟨.text 0, false, name :: stack, true, events ++ [(stack.length, .startElement name attributes)]⟩ := by
  have ends : scan (!stack.isEmpty) (.tag name attributes true) '>' = some (.text 0, .start name attributes) := rfl
  have done : act ⟨.text 0, false, stack, rooted, events⟩ (.start name attributes) =
      some ⟨.text 0, false, name :: stack, true, events ++ [(stack.length, .startElement name attributes)]⟩ := by
    unfold act
    dsimp only
    rw [if_neg first]
  rw [@step_of_scan ⟨.tag name attributes true, false, stack, rooted, events⟩ _ '>' _ _ (by decide)
    (fun line => absurd line.1 (by decide)) ends done]
  rfl

/-- A closing tag, up to its bracket. -/
theorem run_closing {name : List Char} (isName : IsName name) (brackets : Nat) :
    run ⟨.text brackets, returned, stack, rooted, events⟩ ('<' :: '/' :: name) =
      some ⟨.endName name, false, stack, rooted, events⟩ := by
  obtain ⟨first, rest, rfl, start, others⟩ := isName
  have opens : scan (!stack.isEmpty) (.text brackets) '<' = some (.markup, .silent) := rfl
  have slash : scan (!stack.isEmpty) .markup '/' = some (.endName [], .silent) := rfl
  have begins : scan (!stack.isEmpty) (.endName []) first = some (.endName [first], .silent) := if_pos start
  have collects : ∀ front char, front ≠ [] → isNameChar char = true →
      scan (!stack.isEmpty) (.endName front) char = some (.endName (front ++ [char]), .silent) := by
    intro front char nonempty isName
    unfold scan
    dsimp only
    rw [if_neg nonempty, if_pos isName]
  rw [run_cons, step_silent (by decide) opens, Option.bind_some, run_cons, step_silent (by decide) slash,
    Option.bind_some, run_cons, step_silent (isChar_of_isNameChar (isNameChar_of_isNameStart start)) begins,
    Option.bind_some, run_collect collects rest (List.cons_ne_nil _ _) others, List.singleton_append]

/-- The bracket of a closing tag: the innermost element must have its name. -/
theorem step_endName {name : List Char} (nonempty : name ≠ []) :
    step ⟨.endName name, returned, stack, rooted, events⟩ '>' =
      (act ⟨.text 0, returned, stack, rooted, events⟩ (.close name)).map fun next => { next with returned := false } := by
  have ends : scan (!stack.isEmpty) (.endName name) '>' = some (.text 0, .close name) := by
    unfold scan
    dsimp only
    rw [if_neg nonempty]
    rfl
  unfold step advance
  rw [if_neg (by decide), if_neg fun line => absurd line.1 (by decide)]
  show Option.map _ ((scan (!stack.isEmpty) (.endName name) '>').bind _) = _
  rw [ends]
  rfl

/-- A closing tag. -/
theorem run_close {name : List Char} (isName : IsName name) (brackets : Nat) :
    run ⟨.text brackets, returned, name :: stack, rooted, events⟩ ('<' :: '/' :: name ++ ['>']) =
      some ⟨.text 0, false, stack, rooted, events ++ [(stack.length, .endElement name)]⟩ := by
  have nonempty : name ≠ [] := by
    obtain ⟨first, rest, rfl, -⟩ := isName
    exact List.cons_ne_nil _ _
  rw [run_append, run_closing isName brackets, Option.bind_some, run_cons, step_endName nonempty]
  unfold act
  dsimp only
  rw [if_pos rfl, Option.map_some, Option.bind_some, run_nil]

/-- **Only the innermost element is closed.** -/
theorem of_run_close {name : List Char} (isName : IsName name) {brackets : Nat} {final : State}
    (ran : run ⟨.text brackets, returned, stack, rooted, events⟩ ('<' :: '/' :: name ++ ['>']) = some final) :
    ∃ rest, stack = name :: rest ∧
      final = ⟨.text 0, false, rest, rooted, events ++ [(rest.length, .endElement name)]⟩ := by
  have nonempty : name ≠ [] := by
    obtain ⟨first, rest, rfl, -⟩ := isName
    exact List.cons_ne_nil _ _
  cases stack with
  | nil =>
    rw [run_append, run_closing isName brackets, Option.bind_some, run_cons, step_endName nonempty] at ran
    cases ran
  | cons top rest =>
    by_cases same : top = name
    · rw [same, run_close isName brackets] at ran
      exact ⟨rest, by rw [same], (Option.some.inj ran).symm⟩
    · rw [run_append, run_closing isName brackets, Option.bind_some, run_cons, step_endName nonempty] at ran
      unfold act at ran
      dsimp only at ran
      rw [if_neg same] at ran
      cases ran

/-- **The last tag of a document**: what stands before it is a text in the root. -/
theorem text_of_accepted {name : List Char} (isName : IsName name) (harmless : ∀ char ∈ name, char ≠ '-' ∧ char ≠ ']' ∧ char ≠ '?')
    {self final : State} (ran : run self ('<' :: '/' :: name ++ ['>']) = some final) (accepted : final.Accepted) :
    (∃ brackets, self.lex = .text brackets) ∧ self.stack = [name] := by
  obtain ⟨⟨brackets', text⟩, closed, -⟩ := accepted
  have swallowed : ¬ Swallows final.lex := by
    rw [text]
    rintro (same | same | same) <;> cases same
  have start := ran
  rw [List.cons_append, run_cons] at start
  obtain ⟨next, stepped, later⟩ := Option.bind_eq_some_iff.mp start
  obtain ⟨-, ⟨⟨line, -⟩, -⟩ | ⟨-, lex, signal, acted, scanned, done, rfl⟩⟩ := step_cases stepped
  · exact absurd line (by decide)
  · rcases scan_lt scanned with ⟨⟨brackets, inText⟩, -⟩ | swallows
    · refine ⟨⟨brackets, inText⟩, ?_⟩
      obtain ⟨lex', returned', stack', rooted', events'⟩ := self
      obtain rfl : lex' = .text brackets := inText
      obtain ⟨rest, rfl, rfl⟩ := of_run_close isName ran
      obtain rfl : rest = [] := closed
      rfl
    · refine absurd (run_swallows _ later ?_ ?_) swallowed
      · show Swallows acted.lex
        rw [act_lex done]
        exact swallows
      · rw [List.cons_append, List.forall_mem_cons]
        refine ⟨by decide, fun char member => ?_⟩
        rcases List.mem_append.mp member with inName | last
        · exact harmless char inName
        · rw [List.mem_singleton.mp last]
          decide

/-- A line feed in an element. -/
theorem step_line {bottom : List Char} (brackets : Nat) : ∃ brackets' chunks,
    step ⟨.text brackets, returned, bottom :: stack, rooted, events⟩ '\n' =
      some ⟨.text brackets', false, bottom :: stack, rooted, events ++ chunks⟩ ∧
    ∀ level, tagsAt level chunks = [] := by
  cases returned with
  | true =>
    refine ⟨brackets, [], ?_, fun level => rfl⟩
    rw [List.append_nil]
    rfl
  | false => exact ⟨0, [((bottom :: stack).length, .characters ['\n'])], rfl, fun level => rfl⟩

end Written

end Xml
