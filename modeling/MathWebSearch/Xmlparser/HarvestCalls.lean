/-
**The harvest reader and its processor** (`mws/xmlparser/processMwsHarvest.cpp`).

The reader is a client of its processor: it decides by itself when to call it, and all it learns from the answers are
crawl ids and numbers. So what holds of the calls holds of the whole reading.

* `react`, `step_eq` — a step is a reaction that does not look at the processor, carried out with the processor.
* `Keeping.foldlM` — an invariant of the processor; an expression comes with an id that the processor has given away.
* `Simulating.foldlM` — two processors that answer alike are read alike, as long as the first stays within bounds. What
  they answer may be related in any way that keeps null apart.
-/

import MathWebSearch.Xmlparser.ProcessMwsHarvest

namespace MathWebSearch

open EventStream

namespace HarvestReader

variable {W : TextWriter} {σ τ : Type}

/-! ### Reactions -/

/-- What a step comes to: nothing for the processor, an expression, or data that have been copied. -/
inductive Reaction (W : TextWriter) (σ : Type) where
  | quiet (data : MwsHarvestSaxUserData W σ)
  | expression (data : MwsHarvestSaxUserData W σ) (root : CmmlToken)
  | copied (data : MwsHarvestSaxUserData W σ)

/-- The variables in front of the call. -/
def Reaction.data : Reaction W σ → MwsHarvestSaxUserData W σ
  | .quiet data => data
  | .expression data _ => data
  | .copied data => data

/-- A reaction carried out. -/
def Reaction.carryOut (P : HarvestProcessor σ) (shouldProcessData : Bool) : Reaction W σ → MwsHarvestSaxUserData W σ
  | .quiet data => data
  | .expression data root => processRoot P shouldProcessData data root
  | .copied data => processCopied P shouldProcessData data

/-- The reaction to an end tag. -/
def reactToEnd (data : MwsHarvestSaxUserData W σ) : Option (Reaction W σ) :=
  match data.state with
  | .default => none
  | .inMwsHarvest => some (.quiet { data with state := .default })
  | .inMwsExpr =>
    match data.currentToken with
    | [] => some (.quiet { data with state := .inMwsHarvest })
    | [root] => some (.expression data root.close)
    | token :: parent :: rest => some (.quiet { data with currentToken := parent.attach token.close :: rest })
  | .inMwsData =>
    let data := { data with stringWriter := W.endElement data.stringWriter, copyDepth := data.copyDepth - 1 }
    some (if data.copyDepth = 0 then .copied data else .quiet data)
  | .unknown =>
    let data := { data with unknownDepth := data.unknownDepth - 1 }
    some (.quiet (if data.unknownDepth = 0 then { data with state := data.prevState } else data))

/-- The reaction to an event. -/
def react (shouldProcessData : Bool) (data : MwsHarvestSaxUserData W σ) : XmlEvent → Option (Reaction W σ)
  | .startElement name attrs => some (.quiet (startElement shouldProcessData data name attrs))
  | .characters chunk => some (.quiet (characters data chunk))
  | .endElement _ => reactToEnd data
  | .error => some (.quiet (error data))

/-- **A step is a reaction that is carried out.** -/
theorem step_eq (P : HarvestProcessor σ) (shouldProcessData : Bool) (data : MwsHarvestSaxUserData W σ)
    (event : XmlEvent) : step P shouldProcessData data event =
      (react shouldProcessData data event).map (Reaction.carryOut P shouldProcessData) := by
  cases event with
  | startElement name attrs => rfl
  | characters chunk => rfl
  | error => rfl
  | endElement name =>
    obtain ⟨state, _, _, token, _, _, _, _, copyDepth, _, _, _, _⟩ := data
    cases state with
    | inMwsExpr => rcases token with _ | ⟨token, _ | ⟨parent, rest⟩⟩ <;> rfl
    | inMwsData =>
      by_cases last : copyDepth - 1 = 0
      · show (if copyDepth - 1 = 0 then _ else _) = Option.map _ (some (if copyDepth - 1 = 0 then _ else _))
        rw [if_pos last, if_pos last]
        rfl
      · show (if copyDepth - 1 = 0 then _ else _) = Option.map _ (some (if copyDepth - 1 = 0 then _ else _))
        rw [if_neg last, if_neg last]
        rfl
    | _ => rfl

/-- In front of the call nothing has changed that the processor has a part in. -/
theorem react_kept {shouldProcessData : Bool} {data : MwsHarvestSaxUserData W σ} {event : XmlEvent}
    {reaction : Reaction W σ} (reacts : react shouldProcessData data event = some reaction) :
    reaction.data.harvestProcessor = data.harvestProcessor ∧ reaction.data.calls = data.calls ∧
      reaction.data.parsedExpr = data.parsedExpr ∧ reaction.data.localIdToCrawlIds = data.localIdToCrawlIds := by
  cases event with
  | startElement name attrs =>
    obtain rfl := Option.some.inj reacts
    show (startElement shouldProcessData data name attrs).harvestProcessor = _ ∧ _
    unfold startElement goUnknown
    simp only [Reaction.data]
    split <;> (try split) <;> (try split) <;> (try split) <;> exact ⟨rfl, rfl, rfl, rfl⟩
  | characters chunk =>
    obtain rfl := Option.some.inj reacts
    show (characters data chunk).harvestProcessor = _ ∧ _
    unfold characters
    simp only [Reaction.data]
    split <;> (try split) <;> exact ⟨rfl, rfl, rfl, rfl⟩
  | error =>
    obtain rfl := Option.some.inj reacts
    exact ⟨rfl, rfl, rfl, rfl⟩
  | endElement name =>
    have ended : reactToEnd data = some reaction := reacts
    unfold reactToEnd at ended
    split at ended
    · cases ended
    · obtain rfl := Option.some.inj ended
      exact ⟨rfl, rfl, rfl, rfl⟩
    · split at ended <;> obtain rfl := Option.some.inj ended <;> exact ⟨rfl, rfl, rfl, rfl⟩
    · simp only [Option.some.injEq] at ended
      subst ended
      split <;> exact ⟨rfl, rfl, rfl, rfl⟩
    · simp only [Option.some.injEq] at ended
      subst ended
      simp only [Reaction.data]
      split <;> exact ⟨rfl, rfl, rfl, rfl⟩

/-- The number of expressions after an answer of the processor. -/
def countParsed (parsedExpr : Nat) (ret : Int) : Nat :=
  if ret ≠ -1 then ((parsedExpr + ret) % 2 ^ 64).toNat else parsedExpr

/-! ### Invariants -/

section Invariants

variable {P : HarvestProcessor σ} {Inv : List (CmmlToken × Str × CrawlId) → Nat → σ → Prop} {Known : σ → CrawlId → Prop}

/-- **Every call keeps an invariant** of the calls so far, the number of expressions and the processor, and a crawl id
that the processor has given away stays known. -/
structure Keeping (P : HarvestProcessor σ) (Inv : List (CmmlToken × Str × CrawlId) → Nat → σ → Prop)
    (Known : σ → CrawlId → Prop) : Prop where
  expression : ∀ {calls parsedExpr state} token uri {crawlId}, Inv calls parsedExpr state →
    (crawlId ≠ crawlIdNull → Known state crawlId) →
      Inv (calls ++ [(token, uri, crawlId)]) (countParsed parsedExpr (P.processExpression state token uri crawlId).2)
        (P.processExpression state token uri crawlId).1 ∧
      ∀ id, Known state id → Known (P.processExpression state token uri crawlId).1 id
  text : ∀ {calls parsedExpr state} data, Inv calls parsedExpr state →
    Inv calls parsedExpr (P.processData state data).1 ∧
      (∀ id, Known state id → Known (P.processData state data).1 id) ∧
      ((P.processData state data).2 ≠ crawlIdNull → Known (P.processData state data).1 (P.processData state data).2)

/-- The invariant in the variables of the reader: the ids of its map are known. -/
def KeptWith (Inv : List (CmmlToken × Str × CrawlId) → Nat → σ → Prop) (Known : σ → CrawlId → Prop)
    (data : MwsHarvestSaxUserData W σ) : Prop :=
  Inv data.calls data.parsedExpr data.harvestProcessor ∧
    ∀ entry ∈ data.localIdToCrawlIds, Known data.harvestProcessor entry.2

/-- The id of an expression is null or stands in the map. -/
theorem known_crawlIdOfLocalId {shouldProcessData : Bool} {data : MwsHarvestSaxUserData W σ} {Has : CrawlId → Prop}
    (known : ∀ entry ∈ data.localIdToCrawlIds, Has entry.2) (notNull : crawlIdOfLocalId shouldProcessData data ≠ crawlIdNull) :
    Has (crawlIdOfLocalId shouldProcessData data) := by
  unfold crawlIdOfLocalId at notNull ⊢
  cases found : data.localIdToCrawlIds.lookup data.localId with
  | none => exact absurd (by rw [found]) notNull
  | some crawlId =>
    obtain ⟨front, back, split, -⟩ := List.lookup_eq_some_iff.mp found
    have member : (data.localId, crawlId) ∈ data.localIdToCrawlIds := split ▸ List.mem_append_right _ List.mem_cons_self
    simp only [found] at notNull ⊢
    split at notNull
    · rename_i process
      rw [if_pos process]
      exact known _ member
    · exact absurd rfl notNull

/-- One step. -/
theorem Keeping.step (keeping : Keeping P Inv Known) {shouldProcessData : Bool} {data data' : MwsHarvestSaxUserData W σ}
    {event : XmlEvent} (stepped : step P shouldProcessData data event = some data') (kept : KeptWith Inv Known data) :
    KeptWith Inv Known data' := by
  rw [step_eq, Option.map_eq_some_iff] at stepped
  obtain ⟨reaction, reacts, rfl⟩ := stepped
  obtain ⟨processor, calls, parsed, ids⟩ := react_kept reacts
  unfold KeptWith at kept
  rw [← processor, ← calls, ← parsed, ← ids] at kept
  obtain ⟨inv, known⟩ := kept
  cases reaction with
  | quiet data' => exact ⟨inv, known⟩
  | expression data' root =>
    have known' : crawlIdOfLocalId shouldProcessData data' ≠ crawlIdNull →
        Known data'.harvestProcessor (crawlIdOfLocalId shouldProcessData data') := known_crawlIdOfLocalId known
    obtain ⟨inv', grows⟩ := keeping.expression root data'.exprUri inv known'
    exact ⟨inv', fun entry member => grows _ (known entry member)⟩
  | copied data' =>
    unfold Reaction.carryOut processCopied
    cases shouldProcessData with
    | false => exact ⟨inv, known⟩
    | true =>
      obtain ⟨inv', grows, new⟩ := keeping.text (W.endDocument data'.stringWriter) inv
      refine ⟨inv', fun entry member => ?_⟩
      simp only [if_true] at member ⊢
      split at member
      · rename_i notNull
        rcases List.mem_cons.mp member with rfl | old
        · exact new notNull
        · exact grows _ (known entry old)
      · exact grows _ (known entry member)

/-- **A whole harvest keeps the invariant.** -/
theorem Keeping.foldlM (keeping : Keeping P Inv Known) {shouldProcessData : Bool} (events : List XmlEvent) :
    ∀ {data data' : MwsHarvestSaxUserData W σ}, events.foldlM (HarvestReader.step P shouldProcessData) data = some data' →
      KeptWith Inv Known data → KeptWith Inv Known data' := by
  induction events with
  | nil =>
    intro data data' ran kept
    exact Option.some.inj ran ▸ kept
  | cons event rest ih =>
    intro data data' ran kept
    rw [List.foldlM_cons, Option.bind_eq_bind, Option.bind_eq_some_iff] at ran
    obtain ⟨next, stepped, later⟩ := ran
    exact ih later (keeping.step stepped kept)

/-- From an invariant that holds at the start. -/
theorem Keeping.processHarvest (keeping : Keeping P Inv Known) {shouldProcessData : Bool} {events : List XmlEvent}
    {processor : σ} (inv : Inv [] 0 processor) {data : MwsHarvestSaxUserData W σ}
    (read : HarvestReader.processHarvest P shouldProcessData events processor = some data) :
    Inv data.calls data.parsedExpr data.harvestProcessor :=
  (keeping.foldlM events read ⟨inv, fun _ member => absurd member List.not_mem_nil⟩).1

end Invariants

/-! ### Two processors -/

section Alike

variable {Rid : CrawlId → CrawlId → Prop} {first : MwsHarvestSaxUserData W σ} {second : MwsHarvestSaxUserData W τ}

/-- **Two readings of the same events**, with ids that are related. -/
structure ReadAlike (Rid : CrawlId → CrawlId → Prop) (first : MwsHarvestSaxUserData W σ)
    (second : MwsHarvestSaxUserData W τ) : Prop where
  state : first.state = second.state
  unknownDepth : first.unknownDepth = second.unknownDepth
  currentToken : first.currentToken = second.currentToken
  prevState : first.prevState = second.prevState
  stringWriter : first.stringWriter = second.stringWriter
  copyDepth : first.copyDepth = second.copyDepth
  exprUri : first.exprUri = second.exprUri
  localId : first.localId = second.localId
  ids : List.Forall₂ (fun entry other => entry.1 = other.1 ∧ Rid entry.2 other.2) first.localIdToCrawlIds
    second.localIdToCrawlIds
  calls : List.Forall₂ (fun call other => call.1 = other.1 ∧ call.2.1 = other.2.1 ∧ Rid call.2.2 other.2.2) first.calls
    second.calls

/-- The same reaction, to two readings. -/
inductive Reaction.Alike (Rid : CrawlId → CrawlId → Prop) : Reaction W σ → Reaction W τ → Prop
  | quiet {one : MwsHarvestSaxUserData W σ} {other : MwsHarvestSaxUserData W τ} : ReadAlike Rid one other →
      Alike Rid (.quiet one) (.quiet other)
  | expression {one : MwsHarvestSaxUserData W σ} {other : MwsHarvestSaxUserData W τ} {root : CmmlToken} :
      ReadAlike Rid one other → Alike Rid (.expression one root) (.expression other root)
  | copied {one : MwsHarvestSaxUserData W σ} {other : MwsHarvestSaxUserData W τ} : ReadAlike Rid one other →
      Alike Rid (.copied one) (.copied other)

/-- Lookups in related maps. -/
theorem rel_lookup {ids others : List (Str × CrawlId)}
    (alike : List.Forall₂ (fun entry other => entry.1 = other.1 ∧ Rid entry.2 other.2) ids others) (localId : Str) :
    Option.Rel Rid (ids.lookup localId) (others.lookup localId) := by
  induction alike with
  | nil => exact .none
  | @cons entry other _ _ same _ ih =>
    obtain ⟨name, id⟩ := entry
    obtain ⟨name', id'⟩ := other
    obtain ⟨rfl, related⟩ := same
    rw [List.lookup_cons, List.lookup_cons]
    cases localId == name with
    | true => exact .some related
    | false => exact ih

theorem lookup_eq_none_iff {ids others : List (Str × CrawlId)}
    (alike : List.Forall₂ (fun entry other => entry.1 = other.1 ∧ Rid entry.2 other.2) ids others) (localId : Str) :
    ids.lookup localId = none ↔ others.lookup localId = none := by
  have related := rel_lookup alike localId
  generalize ids.lookup localId = one, others.lookup localId = other at related
  cases related <;> simp

/-- Related maps with one more entry, unless the id is null. -/
theorem rel_stored {ids others : List (Str × CrawlId)}
    (alike : List.Forall₂ (fun entry other => entry.1 = other.1 ∧ Rid entry.2 other.2) ids others)
    {localId localId' : Str} (same : localId = localId') {id id' : CrawlId} (related : Rid id id')
    (null : id = crawlIdNull ↔ id' = crawlIdNull) :
    List.Forall₂ (fun entry other => entry.1 = other.1 ∧ Rid entry.2 other.2)
      (if id ≠ crawlIdNull then (localId, id) :: ids else ids)
      (if id' ≠ crawlIdNull then (localId', id') :: others else others) := by
  by_cases isNull : id = crawlIdNull
  · rw [if_neg (not_not.mpr isNull), if_neg (not_not.mpr (null.mp isNull))]
    exact alike
  · rw [if_pos isNull, if_pos fun wrong => isNull (null.mpr wrong)]
    exact .cons ⟨same, related⟩ alike

/-- A start tag. -/
theorem ReadAlike.startElement (alike : ReadAlike Rid first second) (shouldProcessData : Bool) (name : Str)
    (attrs : List (Str × Str)) :
    ReadAlike Rid (startElement shouldProcessData first name attrs) (startElement shouldProcessData second name attrs) := by
  obtain ⟨state, unknownDepth, map, token, prevState, _, _, writer, copyDepth, uri, _, localId, calls⟩ := first
  obtain ⟨state', unknownDepth', map', token', prevState', _, _, writer', copyDepth', uri', _, localId', calls'⟩ := second
  obtain ⟨rfl, rfl, rfl, rfl, rfl, rfl, rfl, rfl, ids, calls⟩ := alike
  cases state with
  | default =>
    unfold HarvestReader.startElement
    dsimp only
    split <;> exact ⟨rfl, rfl, rfl, rfl, rfl, rfl, rfl, rfl, ids, calls⟩
  | inMwsHarvest =>
    unfold HarvestReader.startElement
    dsimp only
    split
    · refine ⟨rfl, rfl, rfl, rfl, rfl, rfl, rfl, ?_, ids, calls⟩
      exact if_congr (and_congr_right fun _ => and_congr_right fun _ => lookup_eq_none_iff ids _) rfl rfl
    · split <;> (try split) <;> exact ⟨rfl, rfl, rfl, rfl, rfl, rfl, rfl, rfl, ids, calls⟩
  | _ => exact ⟨rfl, rfl, rfl, rfl, rfl, rfl, rfl, rfl, ids, calls⟩

/-- Text. -/
theorem ReadAlike.characters (alike : ReadAlike Rid first second) (chunk : Str) :
    ReadAlike Rid (characters first chunk) (characters second chunk) := by
  obtain ⟨state, unknownDepth, map, token, prevState, _, _, writer, copyDepth, uri, _, localId, calls⟩ := first
  obtain ⟨state', unknownDepth', map', token', prevState', _, _, writer', copyDepth', uri', _, localId', calls'⟩ := second
  obtain ⟨rfl, rfl, rfl, rfl, rfl, rfl, rfl, rfl, ids, calls⟩ := alike
  cases state with
  | inMwsExpr => cases token <;> exact ⟨rfl, rfl, rfl, rfl, rfl, rfl, rfl, rfl, ids, calls⟩
  | _ => exact ⟨rfl, rfl, rfl, rfl, rfl, rfl, rfl, rfl, ids, calls⟩

/-- An end tag. -/
theorem ReadAlike.reactToEnd (alike : ReadAlike Rid first second) :
    Option.Rel (Reaction.Alike Rid) (reactToEnd first) (reactToEnd second) := by
  have all := alike
  obtain ⟨state, unknownDepth, map, token, prevState, _, _, writer, copyDepth, uri, _, localId, calls⟩ := first
  obtain ⟨state', unknownDepth', map', token', prevState', _, _, writer', copyDepth', uri', _, localId', calls'⟩ := second
  obtain ⟨rfl, rfl, rfl, rfl, rfl, rfl, rfl, rfl, ids, calls⟩ := alike
  cases state with
  | default => exact .none
  | inMwsHarvest => exact .some (.quiet ⟨rfl, rfl, rfl, rfl, rfl, rfl, rfl, rfl, ids, calls⟩)
  | inMwsExpr =>
    rcases token with _ | ⟨token, _ | ⟨parent, rest⟩⟩
    · exact .some (.quiet ⟨rfl, rfl, rfl, rfl, rfl, rfl, rfl, rfl, ids, calls⟩)
    · exact .some (.expression all)
    · exact .some (.quiet ⟨rfl, rfl, rfl, rfl, rfl, rfl, rfl, rfl, ids, calls⟩)
  | inMwsData =>
    unfold HarvestReader.reactToEnd
    dsimp only
    split
    · exact .some (.copied ⟨rfl, rfl, rfl, rfl, rfl, rfl, rfl, rfl, ids, calls⟩)
    · exact .some (.quiet ⟨rfl, rfl, rfl, rfl, rfl, rfl, rfl, rfl, ids, calls⟩)
  | unknown =>
    unfold HarvestReader.reactToEnd
    dsimp only
    split <;> exact .some (.quiet ⟨rfl, rfl, rfl, rfl, rfl, rfl, rfl, rfl, ids, calls⟩)

/-- **The reader reacts alike.** -/
theorem ReadAlike.react (alike : ReadAlike Rid first second) (shouldProcessData : Bool) (event : XmlEvent) :
    Option.Rel (Reaction.Alike Rid) (react shouldProcessData first event) (react shouldProcessData second event) := by
  cases event with
  | startElement name attrs => exact .some (.quiet (alike.startElement shouldProcessData name attrs))
  | characters chunk => exact .some (.quiet (alike.characters chunk))
  | endElement name => exact alike.reactToEnd
  | error =>
    obtain ⟨state, unknownDepth, -, prevState, writer, copyDepth, exprUri, localId, ids, calls⟩ := alike
    exact .some (.quiet ⟨state, unknownDepth, rfl, prevState, writer, copyDepth, exprUri, localId, ids, calls⟩)

/-- The ids of an expression. -/
theorem ReadAlike.crawlIdOfLocalId (alike : ReadAlike Rid first second) (null : Rid crawlIdNull crawlIdNull)
    (shouldProcessData : Bool) :
    Rid (crawlIdOfLocalId shouldProcessData first) (crawlIdOfLocalId shouldProcessData second) := by
  have related := rel_lookup alike.ids second.localId
  unfold HarvestReader.crawlIdOfLocalId
  rw [alike.localId]
  generalize first.localIdToCrawlIds.lookup second.localId = one, second.localIdToCrawlIds.lookup second.localId = other
    at related
  cases related with
  | none => exact null
  | some related => cases shouldProcessData <;> assumption

end Alike

section Simulations

variable {P : HarvestProcessor σ} {Q : HarvestProcessor τ} {R : σ → τ → Prop} {Rid : CrawlId → CrawlId → Prop}
  {Rnum : Nat → Nat → Prop} {Ok : σ → Prop}

/-- **Two processors answer alike** where the first stays within bounds: their ids and the numbers of expressions are
related. A state within bounds comes from such a state. -/
structure Simulating (P : HarvestProcessor σ) (Q : HarvestProcessor τ) (R : σ → τ → Prop) (Rid : CrawlId → CrawlId → Prop)
    (Rnum : Nat → Nat → Prop) (Ok : σ → Prop) : Prop where
  null : ∀ {id id'}, Rid id id' → (id = crawlIdNull ↔ id' = crawlIdNull)
  bothNull : Rid crawlIdNull crawlIdNull
  expression : ∀ {state} token uri crawlId, Ok (P.processExpression state token uri crawlId).1 → Ok state ∧
    ∀ {other crawlId'}, R state other → Rid crawlId crawlId' →
      R (P.processExpression state token uri crawlId).1 (Q.processExpression other token uri crawlId').1 ∧
        ∀ {number number'}, Rnum number number' → Rnum (countParsed number (P.processExpression state token uri crawlId).2)
          (countParsed number' (Q.processExpression other token uri crawlId').2)
  text : ∀ {state} data, Ok (P.processData state data).1 → Ok state ∧
    ∀ {other}, R state other → R (P.processData state data).1 (Q.processData other data).1 ∧
      Rid (P.processData state data).2 (Q.processData other data).2

/-- Two readings with two processors. -/
structure ReadBoth (R : σ → τ → Prop) (Rid : CrawlId → CrawlId → Prop) (Rnum : Nat → Nat → Prop)
    (first : MwsHarvestSaxUserData W σ) (second : MwsHarvestSaxUserData W τ) : Prop extends ReadAlike Rid first second where
  processors : R first.harvestProcessor second.harvestProcessor
  numbers : Rnum first.parsedExpr second.parsedExpr

/-- The beginning. -/
theorem readBoth_init {processor : σ} {other : τ} (related : R processor other) (zero : Rnum 0 0) :
    ReadBoth R Rid Rnum (init processor : MwsHarvestSaxUserData W σ) (init other) :=
  ⟨⟨rfl, rfl, rfl, rfl, rfl, rfl, rfl, rfl, .nil, .nil⟩, related, zero⟩

/-- One step. -/
theorem Simulating.step (simulating : Simulating P Q R Rid Rnum Ok) {shouldProcessData : Bool}
    {data data' : MwsHarvestSaxUserData W σ} {event : XmlEvent}
    (stepped : HarvestReader.step P shouldProcessData data event = some data') (ok : Ok data'.harvestProcessor) :
    Ok data.harvestProcessor ∧ ∀ {other : MwsHarvestSaxUserData W τ}, ReadBoth R Rid Rnum data other → ∃ other',
      HarvestReader.step Q shouldProcessData other event = some other' ∧ ReadBoth R Rid Rnum data' other' := by
  rw [step_eq, Option.map_eq_some_iff] at stepped
  obtain ⟨reaction, reacts, rfl⟩ := stepped
  obtain ⟨processor, -, parsed, -⟩ := react_kept reacts
  rw [← processor]
  have reacted : ∀ {other : MwsHarvestSaxUserData W τ}, ReadBoth R Rid Rnum data other → ∃ reaction',
      HarvestReader.step Q shouldProcessData other event = some (reaction'.carryOut Q shouldProcessData) ∧
        Reaction.Alike Rid reaction reaction' ∧ R reaction.data.harvestProcessor reaction'.data.harvestProcessor ∧
        Rnum reaction.data.parsedExpr reaction'.data.parsedExpr := by
    intro other both
    have alike := both.toReadAlike.react shouldProcessData event
    rw [reacts] at alike
    cases reacts' : react shouldProcessData other event with
    | none => rw [reacts'] at alike; cases alike
    | some reaction' =>
      rw [reacts'] at alike
      obtain ⟨processor', -, parsed', -⟩ := react_kept reacts'
      refine ⟨reaction', by rw [step_eq, reacts', Option.map_some], ?_, ?_, ?_⟩
      · cases alike with
        | some alike => exact alike
      · rw [processor, processor']
        exact both.processors
      · rw [parsed, parsed']
        exact both.numbers
  cases reaction with
  | quiet data' =>
    refine ⟨ok, fun {other} both => ?_⟩
    obtain ⟨reaction', stepped', alike, processors, numbers⟩ := reacted both
    cases alike with
    | quiet alike => exact ⟨_, stepped', alike, processors, numbers⟩
  | expression data' root =>
    obtain ⟨before, follows⟩ := simulating.expression root data'.exprUri (crawlIdOfLocalId shouldProcessData data') ok
    refine ⟨before, fun {other} both => ?_⟩
    obtain ⟨reaction', stepped', alike, processors, numbers⟩ := reacted both
    cases alike with
    | @expression _ other' _ alike =>
      have ids := alike.crawlIdOfLocalId simulating.bothNull shouldProcessData
      obtain ⟨related, counted⟩ := follows processors ids
      obtain ⟨state, unknownDepth, -, prevState, writer, copyDepth, exprUri, localId, map, calls⟩ := alike
      rw [exprUri] at related counted
      refine ⟨_, stepped', ⟨state, unknownDepth, rfl, prevState, writer, copyDepth, exprUri, localId, map, ?_⟩, ?_, ?_⟩
      · exact List.rel_append calls (.cons ⟨rfl, exprUri, ids⟩ .nil)
      · show R (P.processExpression _ root data'.exprUri _).1 _
        rw [exprUri]
        exact related
      · show Rnum (countParsed _ (P.processExpression _ root data'.exprUri _).2) _
        rw [exprUri]
        exact counted numbers
  | copied data' =>
    cases shouldProcessData with
    | false =>
      refine ⟨ok, fun {other} both => ?_⟩
      obtain ⟨reaction', stepped', alike, processors, numbers⟩ := reacted both
      cases alike with
      | copied alike =>
        obtain ⟨-, unknownDepth, token, prevState, writer, copyDepth, exprUri, localId, map, calls⟩ := alike
        exact ⟨_, stepped', ⟨rfl, unknownDepth, token, prevState, writer, copyDepth, exprUri, localId, map, calls⟩,
          processors, numbers⟩
    | true =>
      obtain ⟨before, follows⟩ := simulating.text (W.endDocument data'.stringWriter) ok
      refine ⟨before, fun {other} both => ?_⟩
      obtain ⟨reaction', stepped', alike, processors, numbers⟩ := reacted both
      cases alike with
      | @copied _ other' alike =>
        have writer := alike.stringWriter
        have follows : R (P.processData data'.harvestProcessor (W.endDocument data'.stringWriter)).1
              (Q.processData other'.harvestProcessor (W.endDocument other'.stringWriter)).1 ∧
            Rid (P.processData data'.harvestProcessor (W.endDocument data'.stringWriter)).2
              (Q.processData other'.harvestProcessor (W.endDocument other'.stringWriter)).2 := by
          rw [← writer]
          exact follows processors
        obtain ⟨related, ids⟩ := follows
        obtain ⟨-, unknownDepth, token, prevState, -, copyDepth, exprUri, localId, map, calls⟩ := alike
        exact ⟨_, stepped', ⟨rfl, unknownDepth, token, prevState, writer, copyDepth, exprUri, localId,
          rel_stored map localId ids (simulating.null ids), calls⟩, related, numbers⟩

/-- **A whole harvest** is read alike with both. -/
theorem Simulating.foldlM (simulating : Simulating P Q R Rid Rnum Ok) {shouldProcessData : Bool}
    (events : List XmlEvent) : ∀ {data data' : MwsHarvestSaxUserData W σ},
      events.foldlM (HarvestReader.step P shouldProcessData) data = some data' →
      Ok data'.harvestProcessor → Ok data.harvestProcessor ∧
        ∀ {other : MwsHarvestSaxUserData W τ}, ReadBoth R Rid Rnum data other → ∃ other',
          events.foldlM (HarvestReader.step Q shouldProcessData) other = some other' ∧
            ReadBoth R Rid Rnum data' other' := by
  induction events with
  | nil =>
    intro data data' ran ok
    obtain rfl := Option.some.inj ran
    exact ⟨ok, fun {other} both => ⟨other, rfl, both⟩⟩
  | cons event rest ih =>
    intro data data' ran ok
    rw [List.foldlM_cons, Option.bind_eq_bind, Option.bind_eq_some_iff] at ran
    obtain ⟨next, stepped, later⟩ := ran
    obtain ⟨between, follows⟩ := ih later ok
    obtain ⟨before, first⟩ := simulating.step stepped between
    refine ⟨before, fun {other} both => ?_⟩
    obtain ⟨middle, stepped', both'⟩ := first both
    obtain ⟨last, later', both''⟩ := follows both'
    exact ⟨last, by rw [List.foldlM_cons, stepped']; exact later', both''⟩

end Simulations

end HarvestReader

end MathWebSearch
