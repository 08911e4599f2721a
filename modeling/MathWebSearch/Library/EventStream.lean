/-
**Event streams of tagged documents.**

A document is a forest of elements and texts; a streaming parser reports it as a balanced list of events. Errors that
the parser reports on its way stand in the forest as nodes of their own.

* `Delivered forest events` — the events report the forest, each text in as many chunks as one likes.
* `merged`, `foldl_merged` — the chunks of the characters do not matter to a machine that joins them.
* `foldlM_skip` — a machine that only counts open elements passes over a forest and is as before.
* `level_foldlM` — a machine with a level that start tags raise by one, end tags lower by one and nothing else raises,
  stands no higher behind a forest than in front of it.
-/

import Mathlib

namespace EventStream

variable {α : Type}

/-- A piece of a document, over the characters `α`. -/
inductive Node (α : Type) where
  | element (name : List α) (attributes : List (List α × List α)) (children : List (Node α))
  | text (content : List α)
  | error

/-- What the parser reports. -/
inductive Event (α : Type) where
  | startElement (name : List α) (attributes : List (List α × List α))
  | characters (chunk : List α)
  | endElement (name : List α)
  | error

/-- **The events report the forest**, in document order. A text comes in one or more chunks. -/
inductive Delivered : List (Node α) → List (Event α) → Prop
  | nil : Delivered [] []
  | element (name : List α) (attributes : List (List α × List α)) {children rest : List (Node α)}
      {inner events : List (Event α)} (below : Delivered children inner) (behind : Delivered rest events) :
      Delivered (.element name attributes children :: rest)
        (.startElement name attributes :: (inner ++ .endElement name :: events))
  | text {chunks : List (List α)} {rest : List (Node α)} {events : List (Event α)} (some : chunks ≠ [])
      (behind : Delivered rest events) :
      Delivered (.text chunks.flatten :: rest) (chunks.map .characters ++ events)
  | error {rest : List (Node α)} {events : List (Event α)} (behind : Delivered rest events) :
      Delivered (.error :: rest) (.error :: events)

/-- Two forests, one behind the other. -/
theorem Delivered.append {first second : List (Node α)} {front back : List (Event α)} (one : Delivered first front)
    (two : Delivered second back) : Delivered (first ++ second) (front ++ back) := by
  induction one with
  | nil => exact two
  | element name attributes below behind _ ih =>
    rw [List.cons_append, List.cons_append, List.append_assoc, List.cons_append]
    exact .element name attributes below ih
  | text some behind ih =>
    rw [List.cons_append, List.append_assoc]
    exact .text some ih
  | error behind ih => exact .error ih

mutual

/-- An error is reported inside the node. -/
def Node.hasError : Node α → Bool
  | .element _ _ children => hasErrors children
  | .text _ => false
  | .error => true

/-- An error is reported inside the forest. -/
def hasErrors : List (Node α) → Bool
  | [] => false
  | node :: rest => node.hasError || hasErrors rest

end

@[simp] theorem hasErrors_cons (node : Node α) (rest : List (Node α)) :
    hasErrors (node :: rest) = (node.hasError || hasErrors rest) := by rw [hasErrors]

@[simp] theorem hasError_element (name : List α) (attributes : List (List α × List α)) (children : List (Node α)) :
    (Node.element name attributes children).hasError = hasErrors children := by rw [Node.hasError]

theorem hasErrors_append (first second : List (Node α)) :
    hasErrors (first ++ second) = (hasErrors first || hasErrors second) := by
  induction first with
  | nil => rfl
  | cons node rest ih => rw [List.cons_append, hasErrors_cons, hasErrors_cons, ih, Bool.or_assoc]

mutual

/-- How many elements stand inside of each other. -/
def Node.height : Node α → Nat
  | .element _ _ children => heightOf children + 1
  | .text _ => 0
  | .error => 0

/-- How many elements stand inside of each other in a forest. -/
def heightOf : List (Node α) → Nat
  | [] => 0
  | node :: rest => max node.height (heightOf rest)

end

/-- A text of single characters; no characters are no text. -/
def textNodes (text : List α) : List (Node α) := if text = [] then [] else [.text text]

theorem delivered_textNodes (text : List α) : Delivered (textNodes text) (text.map fun char => .characters [char]) := by
  unfold textNodes
  split_ifs with empty
  · rw [empty]
    exact .nil
  · have chunks : text.map (fun char => [char]) ≠ [] := fun none => empty (List.map_eq_nil_iff.mp none)
    have delivered := Delivered.text chunks .nil
    rw [List.map_map, List.append_nil, ← List.flatMap_def, List.flatMap_singleton'] at delivered
    exact delivered

theorem hasErrors_textNodes (text : List α) : hasErrors (textNodes text) = false := by
  unfold textNodes
  split_ifs
  · rfl
  · rfl

/-- The errors of the forest are among the events. -/
theorem Delivered.error_mem {forest : List (Node α)} {events : List (Event α)} (delivered : Delivered forest events) :
    hasErrors forest = true → .error ∈ events := by
  induction delivered with
  | nil => intro harm; cases harm
  | element name attributes below behind ihBelow ih =>
    intro harm
    rw [hasErrors_cons, hasError_element, Bool.or_eq_true] at harm
    refine List.mem_cons_of_mem _ (List.mem_append.mpr ?_)
    rcases harm with harm | harm
    · exact Or.inl (ihBelow harm)
    · exact Or.inr (List.mem_cons_of_mem _ (ih harm))
  | text some behind ih =>
    intro harm
    rw [hasErrors_cons, Node.hasError, Bool.false_or] at harm
    exact List.mem_append_right _ (ih harm)
  | error behind ih => intro _; exact List.mem_cons_self

section Machines

variable {State : Type} {step : State → Event α → Option State}

/-- A text chunk by chunk, where the machine only joins the chunks to what it has. -/
theorem foldlM_characters {β : Type} {reading : β → State} {after : β → List α → β}
    (chunk : ∀ held content, step (reading held) (.characters content) = some (reading (after held content)))
    (join : ∀ held first second, after (after held first) second = after held (first ++ second)) :
    ∀ {chunks : List (List α)}, chunks ≠ [] → ∀ held,
      (chunks.map Event.characters).foldlM step (reading held) = some (reading (after held chunks.flatten)) := by
  intro chunks
  induction chunks with
  | nil => intro some; exact absurd rfl some
  | cons first rest ih =>
    intro _ held
    rw [List.map_cons, List.foldlM_cons, chunk, Option.bind_eq_bind, Option.bind_some, List.flatten_cons]
    by_cases last : rest = []
    · subst last
      rw [List.flatten_nil, List.append_nil]
      rfl
    · rw [ih last, join]

/-- **Skipping**: where a machine only counts the elements that are open, it passes over a whole forest. -/
theorem foldlM_skip {skipping : Nat → State}
    (opens : ∀ depth name attributes, step (skipping (depth + 1)) (.startElement name attributes) =
      some (skipping (depth + 2)))
    (closes : ∀ depth name, step (skipping (depth + 2)) (.endElement name) = some (skipping (depth + 1)))
    (characters : ∀ depth chunk, step (skipping (depth + 1)) (.characters chunk) = some (skipping (depth + 1)))
    {forest : List (Node α)} {events : List (Event α)} (delivered : Delivered forest events) :
    (hasErrors forest = true → ∀ depth, step (skipping (depth + 1)) .error = some (skipping (depth + 1))) →
      ∀ depth, events.foldlM step (skipping (depth + 1)) = some (skipping (depth + 1)) := by
  induction delivered with
  | nil => intro _ depth; rfl
  | @element name attributes children rest inner events below behind ihBelow ih =>
    intro error depth
    have errorBelow := fun harm : hasErrors children = true => error (by rw [hasErrors_cons, hasError_element, harm, Bool.true_or])
    have errorBehind := fun harm : hasErrors rest = true => error (by rw [hasErrors_cons, harm, Bool.or_true])
    rw [List.foldlM_cons, opens, Option.bind_eq_bind, Option.bind_some, List.foldlM_append,
      ihBelow errorBelow (depth + 1), Option.bind_eq_bind, Option.bind_some, List.foldlM_cons, closes,
      Option.bind_eq_bind, Option.bind_some, ih errorBehind]
  | @text chunks rest events some behind ih =>
    intro error depth
    have errorBehind := fun harm : hasErrors rest = true => error (by rw [hasErrors_cons, harm, Bool.or_true])
    have all := @foldlM_characters α State step Unit (fun _ => skipping (depth + 1)) (fun held _ => held)
      (fun _ chunk => characters depth chunk) (fun _ _ _ => rfl) chunks some ()
    rw [List.foldlM_append, all, Option.bind_eq_bind, Option.bind_some, ih errorBehind]
  | @error rest events behind ih =>
    intro error depth
    have errorBehind := fun harm : hasErrors rest = true => error (by rw [hasErrors_cons, harm, Bool.or_true])
    rw [List.foldlM_cons, error (by rw [hasErrors_cons, Node.hasError, Bool.true_or]), Option.bind_eq_bind,
      Option.bind_some, ih errorBehind]

/-- What a level has to do: start tags raise it by one, end tags lower it by one, the rest does not raise it. -/
structure Levelled (step : State → Event α → Option State) (Valid : State → Prop) (level : State → Nat) : Prop where
  opens : ∀ {state next name attributes}, Valid state → step state (.startElement name attributes) = some next →
    Valid next ∧ level next = level state + 1
  closes : ∀ {state next name}, Valid state → step state (.endElement name) = some next →
    Valid next ∧ level next + 1 = level state
  characters : ∀ {state next chunk}, Valid state → step state (.characters chunk) = some next →
    Valid next ∧ level next = level state
  error : ∀ {state next}, Valid state → step state .error = some next → Valid next ∧ level next ≤ level state

/-- **The level does not rise over a forest.** -/
theorem level_foldlM {Valid : State → Prop} {level : State → Nat} (levelled : Levelled step Valid level)
    {forest : List (Node α)} {events : List (Event α)} (delivered : Delivered forest events) :
    ∀ {state next : State}, Valid state → events.foldlM step state = some next →
      Valid next ∧ level next ≤ level state := by
  induction delivered with
  | nil =>
    intro state next valid run
    obtain rfl : state = next := Option.some.inj run
    exact ⟨valid, le_rfl⟩
  | element name attributes below behind ihBelow ih =>
    intro state next valid run
    rw [List.foldlM_cons, Option.bind_eq_bind, Option.bind_eq_some_iff] at run
    obtain ⟨opened, opening, run⟩ := run
    rw [List.foldlM_append, Option.bind_eq_bind, Option.bind_eq_some_iff] at run
    obtain ⟨inside, inner, run⟩ := run
    rw [List.foldlM_cons, Option.bind_eq_bind, Option.bind_eq_some_iff] at run
    obtain ⟨closed, closing, run⟩ := run
    obtain ⟨validOpened, levelOpened⟩ := levelled.opens valid opening
    obtain ⟨validInside, levelInside⟩ := ihBelow validOpened inner
    obtain ⟨validClosed, levelClosed⟩ := levelled.closes validInside closing
    obtain ⟨validNext, levelNext⟩ := ih validClosed run
    exact ⟨validNext, by omega⟩
  | @text chunks rest events some behind ih =>
    intro state next valid run
    clear some
    induction chunks generalizing state with
    | nil => exact ih valid run
    | cons first others ihChunks =>
      rw [List.map_cons, List.cons_append, List.foldlM_cons, Option.bind_eq_bind, Option.bind_eq_some_iff] at run
      obtain ⟨read, reading, run⟩ := run
      obtain ⟨validRead, levelRead⟩ := levelled.characters valid reading
      rw [← levelRead]
      exact ihChunks validRead run
  | error behind ih =>
    intro state next valid run
    rw [List.foldlM_cons, Option.bind_eq_bind, Option.bind_eq_some_iff] at run
    obtain ⟨struck, striking, run⟩ := run
    obtain ⟨validStruck, levelStruck⟩ := levelled.error valid striking
    obtain ⟨validNext, levelNext⟩ := ih validStruck run
    exact ⟨validNext, levelNext.trans levelStruck⟩

end Machines

end EventStream
