/-
**Errors in a harvest** (`my_error` in `mws/xmlparser/processMwsHarvest.cpp`).

The parser may report an error and go on. The reader then throws its open tokens away, and with them the only record of
how deep inside the expression it is; the end tags that are still to come close states that are not theirs.

* `level` — how many elements the reader takes to be open. It falls with an error inside an expression and never rises
  again to what it should be, so that the reader runs into the assertion of the default state before the document ends.
* `Resilient` — what one would want: the assertion holds, every end of an `mws:expr` leads back to the harvest state,
  and the expressions without an error are processed.
* `resilient_iff_harmless` — this is so exactly when no error is reported inside an expression element.
-/

import MathWebSearch.Xmlparser.ProcessMwsHarvest

namespace MathWebSearch

open EventStream

namespace HarvestReader

variable {W : TextWriter} {σ : Type}

/-! ### The level -/

/-- The number of open elements below a state that was left for an unknown element. -/
def savedLevel : MwsHarvestState → Nat
  | .default => 0
  | _ => 1

/-- The number of elements the reader takes to be open. -/
def level (data : MwsHarvestSaxUserData W σ) : Nat :=
  match data.state with
  | .default => 0
  | .inMwsHarvest => 1
  | .inMwsExpr => 2 + data.currentToken.length
  | .inMwsData => 1 + data.copyDepth.toNat
  | .unknown => savedLevel data.prevState + data.unknownDepth.toNat

/-- What holds of the variables of the reader in each of its states. -/
structure Valid (data : MwsHarvestSaxUserData W σ) : Prop where
  closed : data.state ≠ .inMwsExpr → data.currentToken = []
  copying : data.state = .inMwsData → 1 ≤ data.copyDepth
  skipping : data.state = .unknown →
    1 ≤ data.unknownDepth ∧ (data.prevState = .default ∨ data.prevState = .inMwsHarvest)

section Levels

variable {P : HarvestProcessor σ} {shouldProcessData : Bool} {data next : MwsHarvestSaxUserData W σ}

/-- Going to an unknown element from one of the two states in which that can happen. -/
theorem level_goUnknown (valid : Valid data) (outer : data.state = .default ∨ data.state = .inMwsHarvest) :
    Valid (goUnknown data) ∧ level (goUnknown data) = level data + 1 := by
  have closed : data.currentToken = [] := by
    refine valid.closed ?_
    rcases outer with outer | outer
    · rw [outer]; decide
    · rw [outer]; decide
  refine ⟨⟨fun _ => closed, nofun, fun _ => ⟨le_rfl, outer⟩⟩, ?_⟩
  rcases outer with outer | outer
  · simp only [level, goUnknown, savedLevel, outer]
    rfl
  · simp only [level, goUnknown, savedLevel, outer]
    rfl

theorem level_startElement (valid : Valid data) (name : Str) (attrs : List (Str × Str)) :
    Valid (startElement shouldProcessData data name attrs) ∧
      level (startElement shouldProcessData data name attrs) = level data + 1 := by
  obtain ⟨state, unknownDepth, localIds, currentToken, prevState, parsedExpr, processor, writer, copyDepth, exprUri,
    content, localId, calls⟩ := data
  cases state with
  | default =>
    unfold startElement
    by_cases main : name = mwsharvestMainName
    · simp only [if_pos main]
      exact ⟨⟨fun _ => valid.closed (fun other => by cases other), (fun other => by cases other), (fun other => by cases other)⟩, rfl⟩
    · simp only [if_neg main]
      exact level_goUnknown valid (Or.inl rfl)
  | inMwsHarvest =>
    obtain rfl : currentToken = [] := valid.closed (fun other => by cases other)
    unfold startElement
    by_cases expr : name = mwsharvestExprName
    · simp only [if_pos expr]
      exact ⟨⟨fun _ => rfl, (fun other => by cases other), (fun other => by cases other)⟩, rfl⟩
    by_cases isData : name = mwsharvestDataName
    · simp only [if_neg expr, if_pos isData]
      split
      · exact level_goUnknown ⟨valid.closed, (fun other => by cases other), (fun other => by cases other)⟩ (Or.inr rfl)
      · exact ⟨⟨fun _ => rfl, fun _ => le_rfl, (fun other => by cases other)⟩, rfl⟩
    · simp only [if_neg expr, if_neg isData]
      exact level_goUnknown valid (Or.inr rfl)
  | inMwsExpr => exact ⟨⟨fun other => absurd rfl other, (fun other => by cases other), (fun other => by cases other)⟩, by simp only [startElement, level]; simp; omega⟩
  | inMwsData =>
    have copying : 1 ≤ copyDepth := valid.copying rfl
    refine ⟨⟨fun _ => valid.closed (fun other => by cases other), fun _ => ?_, (fun other => by cases other)⟩, ?_⟩
    · show 1 ≤ copyDepth + 1
      omega
    · simp only [startElement, level]
      omega
  | unknown =>
    have skipping : 1 ≤ unknownDepth := (valid.skipping rfl).1
    refine ⟨⟨fun _ => valid.closed (fun other => by cases other), (fun other => by cases other), fun _ => ⟨?_, (valid.skipping rfl).2⟩⟩, ?_⟩
    · show 1 ≤ unknownDepth + 1
      omega
    · simp only [startElement, level]
      omega

theorem level_endElement (valid : Valid data) (ended : endElement P shouldProcessData data = some next) :
    Valid next ∧ level next + 1 = level data := by
  obtain ⟨state, unknownDepth, localIds, currentToken, prevState, parsedExpr, processor, writer, copyDepth, exprUri,
    content, localId, calls⟩ := data
  cases state with
  | default => cases ended
  | inMwsHarvest =>
    obtain rfl := Option.some.inj ended
    exact ⟨⟨fun _ => valid.closed nofun, nofun, nofun⟩, rfl⟩
  | inMwsExpr =>
    match currentToken, ended with
    | [], ended =>
      obtain rfl := Option.some.inj ended
      exact ⟨⟨fun _ => rfl, nofun, nofun⟩, rfl⟩
    | [root], ended =>
      obtain rfl := Option.some.inj ended
      exact ⟨⟨fun _ => rfl, nofun, nofun⟩, rfl⟩
    | token :: parent :: rest, ended =>
      obtain rfl := Option.some.inj ended
      exact ⟨⟨fun other => absurd rfl other, nofun, nofun⟩, rfl⟩
  | inMwsData =>
    have copying : 1 ≤ copyDepth := valid.copying rfl
    obtain rfl : currentToken = [] := valid.closed nofun
    unfold endElement at ended
    simp only at ended
    split at ended
    · rename_i last
      obtain rfl := Option.some.inj ended
      have below : level (⟨.inMwsData, unknownDepth, localIds, [], prevState, parsedExpr, processor, writer, copyDepth,
          exprUri, content, localId, calls⟩ : MwsHarvestSaxUserData W σ) = 2 := by
        simp only [level]
        omega
      rw [below]
      unfold processCopied
      cases shouldProcessData with
      | false => exact ⟨⟨fun _ => rfl, nofun, nofun⟩, rfl⟩
      | true => exact ⟨⟨fun _ => rfl, nofun, nofun⟩, rfl⟩
    · obtain rfl := Option.some.inj ended
      refine ⟨⟨fun _ => rfl, fun _ => ?_, nofun⟩, ?_⟩
      · show 1 ≤ copyDepth - 1
        omega
      · simp only [level]
        omega
  | unknown =>
    obtain ⟨skipping, saved⟩ : 1 ≤ unknownDepth ∧ (prevState = .default ∨ prevState = .inMwsHarvest) :=
      valid.skipping rfl
    obtain rfl : currentToken = [] := valid.closed nofun
    unfold endElement at ended
    obtain rfl := Option.some.inj ended
    split
    · rename_i last
      have depth : unknownDepth = 1 := by
        have last : unknownDepth - 1 = 0 := last
        omega
      subst depth
      rcases saved with rfl | rfl
      · exact ⟨⟨fun _ => rfl, nofun, nofun⟩, rfl⟩
      · exact ⟨⟨fun _ => rfl, nofun, nofun⟩, rfl⟩
    · rename_i inside
      have inside : unknownDepth - 1 ≠ 0 := inside
      refine ⟨⟨fun _ => rfl, nofun, fun _ => ⟨?_, saved⟩⟩, ?_⟩
      · show 1 ≤ unknownDepth - 1
        omega
      · simp only [level]
        omega

theorem level_characters (valid : Valid data) (chunk : Str) :
    Valid (characters data chunk) ∧ level (characters data chunk) = level data := by
  obtain ⟨state, unknownDepth, localIds, currentToken, prevState, parsedExpr, processor, writer, copyDepth, exprUri,
    content, localId, calls⟩ := data
  cases state with
  | default => exact ⟨valid, rfl⟩
  | inMwsHarvest => exact ⟨valid, rfl⟩
  | inMwsExpr =>
    cases currentToken with
    | nil => exact ⟨valid, rfl⟩
    | cons token rest => exact ⟨⟨fun other => absurd rfl other, nofun, nofun⟩, rfl⟩
  | inMwsData => exact ⟨⟨valid.closed, valid.copying, nofun⟩, rfl⟩
  | unknown => exact ⟨valid, rfl⟩

/-- An error drops the level to that of the `mws:expr`, if the reader is inside an expression. -/
theorem level_error (valid : Valid data) : Valid (error data) ∧ level (error data) ≤ level data := by
  refine ⟨⟨fun _ => rfl, valid.copying, valid.skipping⟩, ?_⟩
  obtain ⟨state, unknownDepth, localIds, currentToken, prevState, parsedExpr, processor, writer, copyDepth, exprUri,
    content, localId, calls⟩ := data
  cases state with
  | default => exact le_rfl
  | inMwsHarvest => exact le_rfl
  | inMwsExpr => exact Nat.le_add_right _ _
  | inMwsData => exact le_rfl
  | unknown => exact le_rfl

/-- **The level counts the elements the reader takes to be open.** -/
theorem levelled (P : HarvestProcessor σ) (shouldProcessData : Bool) :
    Levelled (step (W := W) P shouldProcessData) Valid level where
  opens := by
    intro data next name attrs valid started
    obtain rfl := Option.some.inj started
    exact level_startElement valid name attrs
  closes := by
    intro data next name valid ended
    exact level_endElement valid ended
  characters := by
    intro data next chunk valid read
    obtain rfl := Option.some.inj read
    exact level_characters valid chunk
  error := by
    intro data next valid struck
    obtain rfl := Option.some.inj struck
    exact level_error valid

end Levels

/-! ### Errors inside an expression -/

section Harm

variable {P : HarvestProcessor σ} {shouldProcessData : Bool}

theorem valid_reading (data : MwsHarvestSaxUserData W σ) (expr : data.state = .inMwsExpr) (cursor : Cursor) :
    Valid { data with currentToken := cursor } :=
  ⟨fun other => absurd expr other, fun other => absurd (expr.symm.trans other) (by decide),
    fun other => absurd (expr.symm.trans other) (by decide)⟩

theorem level_reading (data : MwsHarvestSaxUserData W σ) (expr : data.state = .inMwsExpr) (cursor : Cursor) :
    level { data with currentToken := cursor } = 2 + cursor.length := by
  simp only [level, expr]

/-- The parts of a run over an element. -/
theorem run_element {name : Str} {attrs : List (Str × Str)} {inner events : List XmlEvent}
    {data next : MwsHarvestSaxUserData W σ}
    (run : (.startElement name attrs :: (inner ++ .endElement name :: events)).foldlM (step P shouldProcessData) data =
      some next) :
    ∃ inside closed, inner.foldlM (step P shouldProcessData) (startElement shouldProcessData data name attrs) =
        some inside ∧
      endElement P shouldProcessData inside = some closed ∧ events.foldlM (step P shouldProcessData) closed = some next := by
  rw [List.foldlM_cons, Option.bind_eq_bind, Option.bind_eq_some_iff] at run
  obtain ⟨opened, opening, run⟩ := run
  obtain rfl := Option.some.inj opening
  rw [List.foldlM_append, Option.bind_eq_bind, Option.bind_eq_some_iff] at run
  obtain ⟨inside, below, run⟩ := run
  rw [List.foldlM_cons, Option.bind_eq_bind, Option.bind_eq_some_iff] at run
  obtain ⟨closed, closing, run⟩ := run
  exact ⟨inside, closed, below, closing, run⟩

/-- With a token open, an error makes the level fall for good. -/
theorem level_open_lt {forest : List XmlNode} {events : List XmlEvent} (delivered : Delivered forest events) :
    hasErrors forest = true → ∀ (data : MwsHarvestSaxUserData W σ), data.state = .inMwsExpr →
      ∀ (token : OpenToken) (rest : Cursor) {next : MwsHarvestSaxUserData W σ},
        events.foldlM (step P shouldProcessData) { data with currentToken := token :: rest } = some next →
          level next < 2 + (token :: rest).length := by
  induction delivered with
  | nil => intro harm; rw [hasErrors] at harm; cases harm
  | @element name attrs children nodes inner events below behind ihBelow ih =>
    intro harm data expr token rest next run
    obtain ⟨inside, closed, runBelow, closing, run⟩ := run_element run
    have opened : startElement shouldProcessData { data with currentToken := token :: rest } name attrs =
        { data with currentToken := .new name attrs :: token :: rest } := by
      simp only [startElement, expr]
    rw [opened] at runBelow
    by_cases harmBelow : hasErrors children = true
    · have fallen := ihBelow harmBelow data expr _ _ runBelow
      have validInside := (level_foldlM (levelled P shouldProcessData) below (valid_reading data expr _) runBelow).1
      obtain ⟨validClosed, levelClosed⟩ := level_endElement validInside closing
      have levelNext := (level_foldlM (levelled P shouldProcessData) behind validClosed run).2
      rw [List.length_cons] at fallen
      omega
    · have clean := eq_false_of_ne_true harmBelow
      have harmBehind : hasErrors nodes = true := by
        rwa [hasErrors_cons, hasError_element, clean, Bool.false_or] at harm
      have reads : ReadsTokens (step P shouldProcessData) fun cursor => { data with currentToken := cursor } :=
        readsTokens data expr
      have read := foldlM_open reads below clean (.new name attrs) (token :: rest)
      obtain rfl := Option.some.inj (runBelow.symm.trans read)
      have attached := reads.closes ((OpenToken.new name attrs).absorb children) token rest name
      obtain rfl := Option.some.inj (closing.symm.trans attached)
      have fallen := ih harmBehind data expr _ rest run
      exact fallen
  | @text chunks nodes events some behind ih =>
    intro harm data expr token rest next run
    have all := @foldlM_characters Char _ (step P shouldProcessData) OpenToken
      (fun token => { data with currentToken := token :: rest }) OpenToken.appendTextContent
      (fun token chunk => (readsTokens data expr).characters token rest chunk)
      OpenToken.appendTextContent_appendTextContent chunks some token
    rw [List.foldlM_append, all, Option.bind_eq_bind, Option.bind_some] at run
    rw [hasErrors_cons, Node.hasError, Bool.false_or] at harm
    have fallen := ih harm data expr _ rest run
    exact fallen
  | error behind ih =>
    intro _ data expr token rest next run
    have levelNext := (level_foldlM (levelled P shouldProcessData) behind (valid_reading data expr []) run).2
    rw [level_reading data expr] at levelNext
    exact lt_of_le_of_lt levelNext (by simp)

/-- An error inside one of the expressions of an `mws:expr`. -/
theorem level_expr_lt {forest : List XmlNode} {events : List XmlEvent} (delivered : Delivered forest events) :
    (∃ name attrs inner, .element name attrs inner ∈ forest ∧ hasErrors inner = true) →
      ∀ (data : MwsHarvestSaxUserData W σ), data.state = .inMwsExpr → data.currentToken = [] →
        ∀ {next : MwsHarvestSaxUserData W σ}, events.foldlM (step P shouldProcessData) data = some next →
          level next < 2 := by
  induction delivered with
  | nil => rintro ⟨_, _, _, member, _⟩; cases member
  | @element name attrs children nodes inner events below behind _ ih =>
    intro harm data expr closed next run
    obtain ⟨inside, after, runBelow, closing, run⟩ := run_element run
    have opened : startElement shouldProcessData data name attrs =
        { data with currentToken := [OpenToken.new name attrs] } := by
      simp only [startElement, expr, closed]
    rw [opened] at runBelow
    by_cases harmBelow : hasErrors children = true
    · have fallen := level_open_lt below harmBelow data expr _ _ runBelow
      have validInside := (level_foldlM (levelled P shouldProcessData) below (valid_reading data expr _) runBelow).1
      obtain ⟨validAfter, levelAfter⟩ := level_endElement validInside closing
      have levelNext := (level_foldlM (levelled P shouldProcessData) behind validAfter run).2
      rw [List.length_singleton] at fallen
      omega
    · have clean := eq_false_of_ne_true harmBelow
      obtain ⟨name', attrs', inner', member, errors⟩ := harm
      have behindHarm : .element name' attrs' inner' ∈ nodes := by
        rcases List.mem_cons.mp member with same | member
        · cases same
          exact absurd errors harmBelow
        · exact member
      have reads : ReadsTokens (step P shouldProcessData) fun cursor => { data with currentToken := cursor } :=
        readsTokens data expr
      have read := foldlM_open reads below clean (.new name attrs) []
      obtain rfl := Option.some.inj (runBelow.symm.trans read)
      have processed : endElement P shouldProcessData
          { data with currentToken := [(OpenToken.new name attrs).absorb children] } =
          some (processRoot P shouldProcessData data (tree name attrs children)) := by
        cases data
        cases expr
        rfl
      obtain rfl := Option.some.inj (closing.symm.trans processed)
      exact ih ⟨name', attrs', inner', behindHarm, errors⟩
        (processRoot P shouldProcessData data (tree name attrs children)) expr rfl run
  | @text chunks nodes events some behind ih =>
    rintro ⟨name, attrs, inner, member, errors⟩ data expr closed next run
    have all := @foldlM_characters Char _ (step P shouldProcessData) Unit (fun _ => data) (fun held _ => held)
      (fun _ chunk => by simp only [step, characters, expr, closed]) (fun _ _ _ => rfl) chunks some ()
    rw [List.foldlM_append, all, Option.bind_eq_bind, Option.bind_some] at run
    exact ih ⟨name, attrs, inner, (List.mem_cons.mp member).resolve_left (fun other => by cases other), errors⟩ data expr closed run
  | error behind ih =>
    rintro ⟨name, attrs, inner, member, errors⟩ data expr closed next run
    have struck : step P shouldProcessData data .error = some data := by
      show some _ = some data
      rw [error, ← closed]
    rw [List.foldlM_cons, struck, Option.bind_eq_bind, Option.bind_some] at run
    exact ih ⟨name, attrs, inner, (List.mem_cons.mp member).resolve_left (fun other => by cases other), errors⟩ data expr closed run

end Harm

/-! ### Documents with errors -/

section Documents

variable {P : HarvestProcessor σ} {shouldProcessData : Bool}

/-- An error inside an expression of one of the children of `mws:harvest`. -/
theorem level_harvest_lt {forest : List XmlNode} {events : List XmlEvent} (delivered : Delivered forest events) :
    ¬ Harmless forest → ∀ {data : MwsHarvestSaxUserData W σ} {reading : Reading σ}, InHarvest data reading →
      ∀ {next : MwsHarvestSaxUserData W σ}, events.foldlM (step P shouldProcessData) data = some next →
        level next < 1 := by
  induction delivered with
  | nil => intro harm; exact absurd (fun _ _ member => nomatch member) harm
  | @element name attrs children nodes inner events below behind _ ih =>
    intro harm data reading inHarvest next run
    by_cases harmless : Harmless [.element name attrs children]
    · obtain ⟨middle, runFront, inMiddle⟩ := @foldlM_child W σ P shouldProcessData _ _ inHarvest _ _ _ _ below harmless
      have split : (.startElement name attrs :: (inner ++ .endElement name :: events) : List XmlEvent) =
          (.startElement name attrs :: (inner ++ [.endElement name])) ++ events := by simp
      rw [split, List.foldlM_append, runFront, Option.bind_eq_bind, Option.bind_some] at run
      refine ih ?_ inMiddle run
      intro harmlessBehind
      refine harm fun attrs' children' member => ?_
      rcases List.mem_cons.mp member with same | member
      · exact harmless attrs' children' (same ▸ List.mem_cons_self)
      · exact harmlessBehind attrs' children' member
    · obtain ⟨inside, closed, runBelow, closing, runBehind⟩ := run_element run
      have expr : name = mwsharvestExprName := by
        by_contra other
        refine harmless fun attrs' children' member => ?_
        cases List.mem_singleton.mp member
        exact absurd rfl other
      subst expr
      have harmBelow : ∃ name' attrs' inner', .element name' attrs' inner' ∈ children ∧ hasErrors inner' = true := by
        by_contra none
        refine harmless fun attrs' children' member name' attrs'' inner' insideChild => ?_
        cases List.mem_singleton.mp member
        exact eq_false_of_ne_true fun errors => none ⟨name', attrs'', inner', insideChild, errors⟩
      have state : (startElement shouldProcessData data mwsharvestExprName attrs).state = .inMwsExpr := by
        simp only [startElement, inHarvest.state, if_true]
      have empty : (startElement shouldProcessData data mwsharvestExprName attrs).currentToken = [] := by
        simp only [startElement, inHarvest.state, if_true, inHarvest.closed]
      have fallen := level_expr_lt below harmBelow _ state empty runBelow
      have validOpened : Valid (startElement shouldProcessData data mwsharvestExprName attrs) :=
        ⟨fun _ => empty, fun other => absurd (state.symm.trans other) (by decide),
          fun other => absurd (state.symm.trans other) (by decide)⟩
      have validInside := (level_foldlM (levelled P shouldProcessData) below validOpened runBelow).1
      obtain ⟨validClosed, levelClosed⟩ := level_endElement validInside closing
      have levelNext := (level_foldlM (levelled P shouldProcessData) behind validClosed runBehind).2
      omega
  | @text chunks nodes events some behind ih =>
    intro harm data reading inHarvest next run
    have all := @foldlM_characters Char _ (step P shouldProcessData) Unit (fun _ => data) (fun held _ => held)
      (fun _ chunk => by simp only [step, characters, inHarvest.state]) (fun _ _ _ => rfl) chunks some ()
    rw [List.foldlM_append, all, Option.bind_eq_bind, Option.bind_some] at run
    refine ih (fun harmless => harm fun attrs children member => ?_) inHarvest run
    exact harmless attrs children ((List.mem_cons.mp member).resolve_left (fun other => by cases other))
  | error behind ih =>
    intro harm data reading inHarvest next run
    have struck : step P shouldProcessData data .error = some data := by
      show some _ = some data
      rw [error, ← inHarvest.closed]
    rw [List.foldlM_cons, struck, Option.bind_eq_bind, Option.bind_some] at run
    refine ih (fun harmless => harm fun attrs children member => ?_) inHarvest run
    exact harmless attrs children ((List.mem_cons.mp member).resolve_left (fun other => by cases other))

/-- Errors before the root element do nothing. -/
theorem foldlM_errors (count : Nat) {data : MwsHarvestSaxUserData W σ} (closed : data.currentToken = []) :
    (List.replicate count .error).foldlM (step P shouldProcessData) data = some data := by
  induction count with
  | zero => rfl
  | succ count ih =>
    have struck : step P shouldProcessData data .error = some data := by
      show some _ = some data
      rw [error, ← closed]
    rw [List.replicate_succ, List.foldlM_cons, struck, Option.bind_eq_bind, Option.bind_some, ih]

end Documents

/-- The expression elements of a child of `mws:harvest` inside which no error is reported. -/
def cleanExpressionsOf : XmlNode → List (CmmlToken × Str)
  | .element name attrs children => expressionsOf (.element name attrs (children.filter fun node => !node.hasError))
  | .text _ => []
  | .error => []

/-- The events of a document with a root `mws:harvest`: `before` errors, the root with its children, `after` errors. -/
structure Document (attrs : List (Str × Str)) (children : List XmlNode) (before after : Nat) (events : List XmlEvent) :
    Prop where
  delivered : ∃ inner, Delivered children inner ∧
    events = List.replicate before .error ++
      .startElement mwsharvestMainName attrs :: (inner ++ .endElement mwsharvestMainName :: List.replicate after .error)

/-- **An error does not derail the reader**: it never fails its assertion, is in the harvest state behind every
`mws:expr`, and processes every expression inside which no error was reported. -/
structure Resilient (W : TextWriter) (P : HarvestProcessor σ) (shouldProcessData : Bool) (processor : σ)
    (attrs : List (Str × Str)) (children : List XmlNode) (before : Nat) (events : List XmlEvent) : Prop where
  asserts : (processHarvest P shouldProcessData events processor : Option (MwsHarvestSaxUserData W σ)) ≠ none
  resynchronises : ∀ front attrs' inside back, children = front ++ .element mwsharvestExprName attrs' inside :: back →
    ∀ inner rest, Delivered (front ++ [.element mwsharvestExprName attrs' inside]) inner →
      events = List.replicate before .error ++ .startElement mwsharvestMainName attrs :: (inner ++ rest) →
      ∃ data : MwsHarvestSaxUserData W σ, processHarvest P shouldProcessData
        (List.replicate before .error ++ .startElement mwsharvestMainName attrs :: inner) processor = some data ∧
        data.state = .inMwsHarvest
  processes : ∀ data : MwsHarvestSaxUserData W σ, processHarvest P shouldProcessData events processor = some data →
    (children.flatMap cleanExpressionsOf).Sublist (data.calls.map fun call => (call.1, call.2.1))

section Resilience

variable {P : HarvestProcessor σ} {shouldProcessData : Bool} {processor : σ} {attrs : List (Str × Str)}
  {children : List XmlNode}

/-- The reader behind the start tag of the root. -/
theorem inHarvest_opened (processor : σ) :
    InHarvest (W := W) { init processor with state := .inMwsHarvest } ⟨processor, [], []⟩ :=
  ⟨⟨rfl, rfl, rfl, nofun⟩, rfl, rfl⟩

/-- Errors, the start tag of the root, and then what one likes. -/
theorem processHarvest_opened (before : Nat) (events : List XmlEvent) :
    (processHarvest P shouldProcessData
        (List.replicate before .error ++ .startElement mwsharvestMainName attrs :: events) processor :
          Option (MwsHarvestSaxUserData W σ)) =
      events.foldlM (step P shouldProcessData) { init processor with state := .inMwsHarvest } := by
  have started : step (W := W) P shouldProcessData (init processor) (.startElement mwsharvestMainName attrs) =
      some { init processor with state := .inMwsHarvest } := by
    simp only [step, startElement, init, if_true]
  rw [processHarvest, List.foldlM_append, foldlM_errors before rfl, Option.bind_eq_bind, Option.bind_some,
    List.foldlM_cons, started, Option.bind_eq_bind, Option.bind_some]

/-- Leaving elements out leaves tokens out. -/
theorem sublist_trees (forest : List XmlNode) (keep : XmlNode → Bool) :
    (trees (forest.filter keep)).Sublist (trees forest) := by
  induction forest with
  | nil => exact List.Sublist.refl _
  | cons node rest ih =>
    rw [List.filter_cons]
    split
    · rw [trees, trees]
      exact List.Sublist.append_left ih _
    · rw [trees]
      exact ih.trans (List.sublist_append_right _ _)

theorem sublist_cleanExpressionsOf (node : XmlNode) : (cleanExpressionsOf node).Sublist (expressionsOf node) := by
  cases node with
  | element name attrs children =>
    rw [cleanExpressionsOf, expressionsOf, expressionsOf]
    split
    · exact (sublist_trees children _).map _
    · exact List.Sublist.refl _
  | text content => exact List.Sublist.refl _
  | error => exact List.Sublist.refl _

theorem sublist_flatMap_cleanExpressionsOf (forest : List XmlNode) :
    (forest.flatMap cleanExpressionsOf).Sublist (forest.flatMap expressionsOf) := by
  induction forest with
  | nil => exact List.Sublist.refl _
  | cons node rest ih =>
    rw [List.flatMap_cons, List.flatMap_cons]
    exact (sublist_cleanExpressionsOf node).append ih

/-- **Exactly the errors inside expressions derail the reader.** -/
theorem resilient_iff_harmless (P : HarvestProcessor σ) (shouldProcessData : Bool) (processor : σ) {before after : Nat}
    {events : List XmlEvent} (document : Document attrs children before after events) :
    Resilient W P shouldProcessData processor attrs children before events ↔ Harmless children := by
  obtain ⟨inner, delivered, rfl⟩ := document.delivered
  constructor
  · intro resilient
    by_contra harm
    obtain ⟨final, run⟩ := Option.ne_none_iff_exists'.mp resilient.asserts
    rw [processHarvest_opened, List.foldlM_append, Option.bind_eq_bind, Option.bind_eq_some_iff] at run
    obtain ⟨inside, runBelow, run⟩ := run
    rw [List.foldlM_cons, Option.bind_eq_bind, Option.bind_eq_some_iff] at run
    obtain ⟨closed, closing, _⟩ := run
    -- behind the children the reader takes no element to be open, so that it cannot close the root
    have fallen := level_harvest_lt delivered harm (inHarvest_opened processor) runBelow
    have opened : Valid (W := W) { init processor with state := .inMwsHarvest } := ⟨fun _ => rfl, (fun other => by cases other), (fun other => by cases other)⟩
    have validInside := (level_foldlM (levelled P shouldProcessData) delivered opened runBelow).1
    have levelClosed := (level_endElement validInside closing).2
    omega
  · intro harmless
    obtain ⟨last, run, inLast⟩ :=
      @foldlM_harvest W σ P shouldProcessData _ _ delivered harmless _ _ (inHarvest_opened processor)
    have closes : step P shouldProcessData last (.endElement mwsharvestMainName) =
        some { last with state := .default } := by
      simp only [step, endElement, inLast.state]
    have whole : processHarvest P shouldProcessData
        (List.replicate before .error ++ .startElement mwsharvestMainName attrs ::
          (inner ++ .endElement mwsharvestMainName :: List.replicate after .error)) processor =
        some { last with state := .default } := by
      rw [processHarvest_opened, List.foldlM_append, run, Option.bind_eq_bind, Option.bind_some, List.foldlM_cons,
        closes, Option.bind_eq_bind, Option.bind_some]
      exact foldlM_errors after inLast.closed
    refine ⟨?_, ?_, ?_⟩
    · rw [whole]
      exact (fun other => by cases other)
    · intro front attrs' inside back split inner' rest deliveredFront _
      have harmlessFront : Harmless (front ++ [.element mwsharvestExprName attrs' inside]) := by
        intro attrs'' children' member
        refine harmless attrs'' children' ?_
        rw [split, List.append_cons]
        exact List.mem_append_left back member
      obtain ⟨data, runFront, inData⟩ :=
        @foldlM_harvest W σ P shouldProcessData _ _ deliveredFront harmlessFront _ _ (inHarvest_opened processor)
      exact ⟨data, by rw [processHarvest_opened, runFront], inData.state⟩
    · intro data runWhole
      obtain rfl := Option.some.inj (runWhole.symm.trans whole)
      have calls : last.calls.map (fun call => (call.1, call.2.1)) = children.flatMap expressionsOf := by
        rw [inLast.calls, calls_foldl_readChild]
        rfl
      show (children.flatMap cleanExpressionsOf).Sublist (last.calls.map fun call => (call.1, call.2.1))
      rw [calls]
      exact sublist_flatMap_cleanExpressionsOf children

end Resilience

/-- An expression with an error inside it. -/
def struckHarvest : List XmlNode := [.element mwsharvestExprName [] [.element ['c', 'i'] [] [.error]]]

/-- An error between two expressions. -/
def resilientHarvest : List XmlNode :=
  [.element mwsharvestExprName [] [.element ['c', 'i'] [] []], .error,
    .element mwsharvestExprName [] [.element ['c', 'n'] [] []]]

def struckEvents : List XmlEvent :=
  [.startElement mwsharvestMainName [], .startElement mwsharvestExprName [], .startElement ['c', 'i'] [], .error,
    .endElement ['c', 'i'], .endElement mwsharvestExprName, .endElement mwsharvestMainName]

def resilientEvents : List XmlEvent :=
  [.startElement mwsharvestMainName [], .startElement mwsharvestExprName [], .startElement ['c', 'i'] [],
    .endElement ['c', 'i'], .endElement mwsharvestExprName, .error, .startElement mwsharvestExprName [],
    .startElement ['c', 'n'] [], .endElement ['c', 'n'], .endElement mwsharvestExprName,
    .endElement mwsharvestMainName]

theorem document_struckHarvest : Document [] struckHarvest 0 0 struckEvents := by
  have ci := Delivered.element ['c', 'i'] [] (Delivered.error .nil) .nil
  exact ⟨_, Delivered.element mwsharvestExprName [] ci .nil, rfl⟩

theorem document_resilientHarvest : Document [] resilientHarvest 0 0 resilientEvents := by
  have cn := Delivered.element ['c', 'n'] [] .nil .nil
  have second := Delivered.error (Delivered.element mwsharvestExprName [] cn .nil)
  have ci := Delivered.element ['c', 'i'] [] .nil .nil
  exact ⟨_, Delivered.element mwsharvestExprName [] ci second, rfl⟩

/-- An error between expressions does no harm. -/
theorem resilient_resilientHarvest :
    Resilient plainWriter countingProcessor true (0, 0) [] resilientHarvest 0 resilientEvents := by
  refine (resilient_iff_harmless countingProcessor true (0, 0) document_resilientHarvest).mpr ?_
  intro attrs children member name attrs' inner inside
  rcases List.mem_cons.mp member with same | member
  · cases same
    cases List.mem_singleton.mp inside
    rfl
  rcases List.mem_cons.mp member with same | member
  · cases same
  · cases List.mem_singleton.mp member
    cases List.mem_singleton.mp inside
    rfl

/-- **One error inside an expression makes the reader fail its assertion** at the end tag of the root. -/
theorem struckHarvest_asserts :
    Document [] struckHarvest 0 0 struckEvents ∧
      (processHarvest countingProcessor true struckEvents (0, 0) :
        Option (MwsHarvestSaxUserData plainWriter (Nat × Nat))) = none ∧
      ¬ Resilient plainWriter countingProcessor true (0, 0) [] struckHarvest 0 struckEvents := by
  have fails : (processHarvest countingProcessor true struckEvents (0, 0) :
      Option (MwsHarvestSaxUserData plainWriter (Nat × Nat))) = none := rfl
  exact ⟨document_struckHarvest, fails, fun resilient => resilient.asserts fails⟩

end HarvestReader

end MathWebSearch
