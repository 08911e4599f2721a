/-
**What harvests leave in the index** (`loadHarvests` in `IndexBuilder.cpp`).

Between two expressions the harvest reader stores crawl data, logs, opens files and passes over what it does not know.
None of this touches the index: what is left is a list of expressions that are indexed one after the other. Nodes of the
index have fewer than `2 ^ 31` children, as a `VectorMap` can have.

* `Indexed` — a builder has indexed expressions, whose crawl ids have their data.
* `recorder`, `harvestExpressions` — the expressions in the files that are loaded with their `url`s and their data, as the
  reader takes them down without any database.
* `loadHarvests_loads` — **what `loadHarvests` has indexed are these expressions**, under crawl ids that have these data.
* `loadHarvests_completes` — it goes through, when the expressions are well shaped.
-/

import MathWebSearch.Dbc.LevCrawlDb
import MathWebSearch.Index.RelatedDatabases

namespace MathWebSearch

open CmmlToken IndexBuilder HarvestReader

variable {F C : Type}

/-! ### Indexing does not look at crawl data -/

/-- The same formulas are stored, whatever the crawl database. -/
theorem relatingFormulas_self {C' : Type} (databases : Databases F C) (putData : C' → Str → Option (C' × CrawlId)) :
    RelatingFormulas databases ⟨databases.insertFormula, putData⟩ (fun first second => first = second) fun _ => True where
  insertFormula := fun _ _ _ _ => ⟨trivial, fun {_} same => same ▸ rfl⟩

namespace IndexBuilder

/-- The builder with another crawl database. -/
def withCrawlDb {C' : Type} (self : IndexBuilder F C) (crawlDb : Option C') : IndexBuilder F C' :=
  self.withDatabases self.formulaDb crawlDb

variable {databases : Databases F C}

/-- An expression. -/
theorem indexContentMath_withCrawlDb {C' : Type} {self self' : IndexBuilder F C} {tree : CmmlToken} {xmlId : Str}
    {crawlId : CrawlId} {number : Int}
    (indexed : self.indexContentMath databases tree xmlId crawlId = some (self', number))
    (putData : C' → Str → Option (C' × CrawlId)) (crawlDb : Option C') : self'.crawlDb = self.crawlDb ∧
      (self.withCrawlDb crawlDb).indexContentMath ⟨databases.insertFormula, putData⟩ tree xmlId crawlId =
        some (self'.withCrawlDb crawlDb, number) := by
  obtain ⟨kept, -, follows⟩ := (relatingFormulas_self databases putData).indexContentMath indexed trivial
  obtain ⟨formulaDb, indexed', rfl⟩ := follows crawlDb rfl
  exact ⟨kept, indexed'⟩

/-- Expressions one after the other. -/
theorem indexAll_withCrawlDb {C' : Type} (putData : C' → Str → Option (C' × CrawlId)) (crawlDb : Option C')
    (inputs : List (CmmlToken × Str × CrawlId)) : ∀ {self self' : IndexBuilder F C} {numbers : List Int},
      indexAll databases inputs self = some (self', numbers) → self'.crawlDb = self.crawlDb ∧
        indexAll ⟨databases.insertFormula, putData⟩ inputs (self.withCrawlDb crawlDb) =
          some (self'.withCrawlDb crawlDb, numbers) := by
  induction inputs with
  | nil =>
    intro self self' numbers indexed
    obtain ⟨rfl, rfl⟩ := Prod.mk.inj (Option.some.inj indexed)
    exact ⟨rfl, rfl⟩
  | cons input rest ih =>
    intro self self' numbers indexed
    obtain ⟨⟨next, number⟩, first, later⟩ := Option.bind_eq_some_iff.mp indexed
    obtain ⟨⟨last, others⟩, behind, same⟩ := Option.bind_eq_some_iff.mp later
    obtain ⟨rfl, rfl⟩ := Prod.mk.inj (Option.some.inj same)
    obtain ⟨kept, first'⟩ := indexContentMath_withCrawlDb first putData crawlDb
    obtain ⟨kept', behind'⟩ := ih behind
    refine ⟨kept'.trans kept, ?_⟩
    rw [indexAll, first']
    show Option.bind (indexAll _ rest (next.withCrawlDb crawlDb)) _ = _
    rw [behind']
    rfl

/-- More expressions. -/
theorem indexAll_append {first second : List (CmmlToken × Str × CrawlId)} {self next last : IndexBuilder F C}
    {numbers others : List Int} (one : indexAll databases first self = some (next, numbers))
    (other : indexAll databases second next = some (last, others)) :
    indexAll databases (first ++ second) self = some (last, numbers ++ others) := by
  induction first generalizing self numbers with
  | nil =>
    obtain ⟨rfl, rfl⟩ := Prod.mk.inj (Option.some.inj one)
    exact other
  | cons input rest ih =>
    obtain ⟨⟨middle, number⟩, indexed, later⟩ := Option.bind_eq_some_iff.mp one
    obtain ⟨⟨next', numbers'⟩, behind, same⟩ := Option.bind_eq_some_iff.mp later
    obtain ⟨rfl, rfl⟩ := Prod.mk.inj (Option.some.inj same)
    rw [List.cons_append, indexAll, indexed]
    show Option.bind (indexAll _ (rest ++ second) middle) _ = _
    rw [ih behind]
    rfl

end IndexBuilder

/-! ### Crawl databases that remember -/

/-- **What is put stays**: an id that `putData` returns has its data, and keeps them. -/
structure Remembers (databases : Databases F C) (HasData : C → CrawlId → Prop) : Prop where
  put : ∀ {crawlDb crawlDb' crawlData crawlId}, databases.putData crawlDb crawlData = some (crawlDb', crawlId) →
    HasData crawlDb' crawlId ∧ ∀ id, HasData crawlDb id → HasData crawlDb' id

/-- The database in memory remembers. -/
theorem remembers_memDatabases : Remembers memDatabases fun crawlDb crawlId => (crawlDb.getData crawlId).isSome where
  put := by
    intro crawlDb crawlDb' crawlData crawlId stored
    have expanded : crawlDb.putData crawlData = some (crawlDb', crawlId) := stored
    unfold MemCrawlDb.putData at expanded
    dsimp only at expanded
    split at expanded
    · cases expanded
    · rename_i free
      obtain ⟨rfl, rfl⟩ := Prod.mk.inj (Option.some.inj expanded)
      simp only [MemCrawlDb.getData, List.lookup_append]
      exact ⟨by rw [List.lookup_cons_self]; simp, fun id known => by rw [Option.isSome_or, known, Bool.true_or]⟩

/-! ### Builders that have indexed -/

/-- The builder has a crawl database with the data of an id. -/
def IndexBuilder.Knows (HasData : C → CrawlId → Prop) (builder : IndexBuilder F C) (crawlId : CrawlId) : Prop :=
  ∃ crawlDb, builder.crawlDb = some crawlDb ∧ HasData crawlDb crawlId

/-- **A builder has indexed expressions**, from a start on: their crawl ids are null or have their data, and their numbers
have been added up, but for the number -1. -/
structure Indexed (databases : Databases F C) (HasData : C → CrawlId → Prop) (start : IndexBuilder F C)
    (inputs : List (CmmlToken × Str × CrawlId)) (builder : IndexBuilder F C) (numExpressions : Nat) : Prop where
  indexed : ∃ numbers, indexAll databases inputs start = some (builder.withCrawlDb start.crawlDb, numbers) ∧
    (numExpressions : Int) = (numbers.filter (· ≠ -1)).sum % 2 ^ 64
  crawled : ∀ input ∈ inputs, input.2.2 ≠ crawlIdNull → builder.Knows HasData input.2.2
  grown : ∀ crawlId, start.Knows HasData crawlId → builder.Knows HasData crawlId

namespace Indexed

variable {databases : Databases F C} {HasData : C → CrawlId → Prop} {start builder builder' : IndexBuilder F C}
  {inputs inputs' : List (CmmlToken × Str × CrawlId)} {numExpressions numExpressions' : Nat}

/-- The number is an integer of 64 bits. -/
theorem small (indexed : Indexed databases HasData start inputs builder numExpressions) : numExpressions < 2 ^ 64 := by
  obtain ⟨numbers, -, counted⟩ := indexed.indexed
  omega

/-- Nothing yet. -/
theorem refl (databases : Databases F C) (HasData : C → CrawlId → Prop) (start : IndexBuilder F C) :
    Indexed databases HasData start [] start 0 :=
  ⟨⟨[], rfl, rfl⟩, fun _ member => absurd member List.not_mem_nil, fun _ known => known⟩

/-- **One after the other.** -/
theorem trans (one : Indexed databases HasData start inputs builder numExpressions)
    (other : Indexed databases HasData builder inputs' builder' numExpressions') :
    Indexed databases HasData start (inputs ++ inputs') builder' ((numExpressions + numExpressions') % 2 ^ 64) := by
  obtain ⟨numbers, first, counted⟩ := one.indexed
  obtain ⟨numbers', second, counted'⟩ := other.indexed
  have second' := (indexAll_withCrawlDb databases.putData start.crawlDb inputs' second).2
  refine ⟨⟨numbers ++ numbers', indexAll_append first second', ?_⟩, fun input member notNull => ?_,
    fun crawlId known => other.grown crawlId (one.grown crawlId known)⟩
  · rw [List.filter_append, List.sum_append]
    omega
  · rcases List.mem_append.mp member with old | new
    · exact other.grown _ (one.crawled input old notNull)
    · exact other.crawled input new notNull

end Indexed

/-! ### Loading -/

section Loading

variable {databases : Databases F C} {HasData : C → CrawlId → Prop}

/-- An answer of the processor, for itself. -/
theorem countParsed_zero (ret : Int) : (countParsed 0 ret : Int) = ([ret].filter (· ≠ -1)).sum % 2 ^ 64 := by
  rw [countParsed]
  by_cases failed : ret = -1
  · simp [failed]
  · have kept : [ret].filter (· ≠ -1) = [ret] := by simp [failed]
    rw [if_pos failed, kept, List.sum_singleton]
    omega

/-- The answers are added up. -/
theorem countParsed_eq {parsedExpr : Nat} (small : parsedExpr < 2 ^ 64) (ret : Int) :
    countParsed parsedExpr ret = (parsedExpr + countParsed 0 ret) % 2 ^ 64 := by
  rw [countParsed, countParsed]
  split_ifs <;> omega

/-- What holds of the processor while a harvest is read. -/
def ReadSoFar (databases : Databases F C) (HasData : C → CrawlId → Prop) (start : IndexBuilder F C)
    (calls : List (CmmlToken × Str × CrawlId)) (parsedExpr : Nat) (state : Option (IndexBuilder F C)) : Prop :=
  ∀ builder, state = some builder → Indexed databases HasData start calls builder parsedExpr

/-- An id that the processor has given away. -/
def GivenAway (HasData : C → CrawlId → Prop) (state : Option (IndexBuilder F C)) (crawlId : CrawlId) : Prop :=
  ∀ builder, state = some builder → builder.Knows HasData crawlId

/-- Nothing is asked of a processor that has failed. -/
theorem of_failed {Property : IndexBuilder F C → Prop} (builder : IndexBuilder F C)
    (wrong : (none : Option (IndexBuilder F C)) = some builder) : Property builder :=
  absurd wrong.symm (Option.some_ne_none builder)

/-- **An expression** is indexed; the crawl database stays the same. -/
theorem indexed_expression {builder builder' : IndexBuilder F C} {token : CmmlToken} {uri : Str} {crawlId : CrawlId}
    {number : Int} (computed : builder.indexContentMath databases token uri crawlId = some (builder', number))
    (known : crawlId ≠ crawlIdNull → builder.Knows HasData crawlId) :
    Indexed databases HasData builder [(token, uri, crawlId)] builder' (countParsed 0 number) := by
  have kept := (indexContentMath_withCrawlDb computed databases.putData none).1
  have same : ∀ id, builder'.Knows HasData id ↔ builder.Knows HasData id := fun id => by
    rw [Knows, Knows, kept]
  refine ⟨⟨[number], ?_, countParsed_zero number⟩, fun input member notNull => ?_, fun id => (same id).mpr⟩
  · rw [indexAll, computed]
    show some (builder', [number]) = _
    rw [withCrawlDb, ← kept]
    rfl
  · obtain rfl := List.mem_singleton.mp member
    exact (same _).mpr (known notNull)

/-- **Crawl data** are stored: nothing else changes, ids that are known stay so, and the new one is known. -/
theorem indexed_crawlData (remembers : Remembers databases HasData) {builder builder' : IndexBuilder F C} {data : Str}
    {crawlId : CrawlId} (computed : builder.indexCrawlData databases data = some (builder', crawlId)) :
    Indexed databases HasData builder [] builder' 0 ∧ (crawlId ≠ crawlIdNull → builder'.Knows HasData crawlId) := by
  unfold indexCrawlData at computed
  split at computed
  · rename_i crawlDb given
    obtain ⟨⟨crawlDb', id'⟩, put, same⟩ := Option.bind_eq_some_iff.mp computed
    obtain ⟨rfl, rfl⟩ := Prod.mk.inj (Option.some.inj same)
    obtain ⟨new, old⟩ := remembers.put put
    refine ⟨⟨⟨[], rfl, rfl⟩, fun _ member => absurd member List.not_mem_nil, fun id knows => ?_⟩,
      fun _ => ⟨crawlDb', rfl, new⟩⟩
    obtain ⟨crawlDb'', has, known⟩ := knows
    obtain rfl := Option.some.inj (given.symm.trans has)
    exact ⟨crawlDb', rfl, old id known⟩
  · obtain ⟨rfl, rfl⟩ := Prod.mk.inj (Option.some.inj computed)
    exact ⟨.refl _ _ _, fun wrong => absurd rfl wrong⟩

/-- **The indexer keeps it up.** -/
theorem keeping_harvestIndexer (remembers : Remembers databases HasData) (start : IndexBuilder F C) :
    Keeping (harvestIndexer databases) (ReadSoFar databases HasData start) (GivenAway HasData) where
  expression := by
    intro calls parsedExpr state token uri crawlId inv known
    cases state with
    | none => exact ⟨of_failed, fun _ _ => of_failed⟩
    | some builder =>
      cases computed : builder.indexContentMath databases token uri crawlId with
      | none =>
        simp only [harvestIndexer, Option.bind_some, computed]
        exact ⟨of_failed, fun _ _ => of_failed⟩
      | some result =>
        obtain ⟨builder', number⟩ := result
        simp only [harvestIndexer, Option.bind_some, computed]
        have before := inv builder rfl
        have one := indexed_expression computed fun notNull => known notNull builder rfl
        refine ⟨fun _ wanted => ?_, fun id given _ wanted => ?_⟩
        · obtain rfl := Option.some.inj wanted
          rw [countParsed_eq before.small]
          exact before.trans one
        · obtain rfl := Option.some.inj wanted
          exact one.grown id (given builder rfl)
  text := by
    intro calls parsedExpr state data inv
    cases state with
    | none => exact ⟨of_failed, fun _ _ => of_failed, fun _ => of_failed⟩
    | some builder =>
      cases computed : builder.indexCrawlData databases data with
      | none =>
        simp only [harvestIndexer, Option.bind_some, computed]
        exact ⟨of_failed, fun _ _ => of_failed, fun _ => of_failed⟩
      | some result =>
        obtain ⟨builder', crawlId⟩ := result
        simp only [harvestIndexer, Option.bind_some, computed]
        have before := inv builder rfl
        obtain ⟨step, new⟩ := indexed_crawlData remembers computed
        refine ⟨fun _ wanted => ?_, fun id given _ wanted => ?_, fun notNull _ wanted => ?_⟩
        · obtain rfl := Option.some.inj wanted
          have whole := before.trans step
          have small : parsedExpr < 2 ^ 64 := before.small
          rwa [List.append_nil, Nat.add_zero, Nat.mod_eq_of_lt small] at whole
        · obtain rfl := Option.some.inj wanted
          exact step.grown id (given builder rfl)
        · obtain rfl := Option.some.inj wanted
          exact new notNull

end Loading

/-! ### The expressions of a document -/

/-- A processor that only takes down the texts and the expressions, and numbers the texts from one. -/
def recorder : HarvestProcessor (List Str × List CmmlToken) where
  processExpression state token _ _ := ((state.1, state.2 ++ [token]), 0)
  processData state text := ((state.1 ++ [text], state.2), state.1.length + 1)

/-- What is taken down of a document; `none` is the failed assertion of the reader. -/
def recording (W : TextWriter) (shouldProcessData : Bool) (events : List XmlEvent) :
    Option (MwsHarvestSaxUserData W (List Str × List CmmlToken)) :=
  processHarvest recorder shouldProcessData events ([], [])

/-- The text with a number; the number null stands for no text. -/
def textOf (texts : List Str) (crawlId : CrawlId) : Str := (CrawlDb.stored texts crawlId).getD crawlDataNull

/-- **The expressions of a document**, each with its `url` and its data. -/
def expressionsIn (W : TextWriter) (shouldProcessData : Bool) (events : List XmlEvent) : List (CmmlToken × Str × Str) :=
  ((recording W shouldProcessData events).map fun data =>
    data.calls.map fun call => (call.1, call.2.1, textOf data.harvestProcessor.1 call.2.2)).getD []

/-- The expressions are the ones that come with the calls, and the numbers there are numbers of texts. -/
theorem keeping_recorder : Keeping recorder (fun calls _ state =>
      calls.map Prod.fst = state.2 ∧ ∀ call ∈ calls, call.2.2 ≤ state.1.length)
    fun state crawlId => crawlId ≤ state.1.length where
  expression := by
    intro calls parsedExpr state token uri crawlId inv known
    refine ⟨⟨?_, fun call member => ?_⟩, fun _ known => known⟩
    · rw [List.map_append, inv.1]
      rfl
    · rcases List.mem_append.mp member with old | new
      · exact inv.2 call old
      · obtain rfl := List.mem_singleton.mp new
        by_cases null : crawlId = crawlIdNull
        · exact null ▸ Nat.zero_le _
        · exact known null
  text := by
    intro calls parsedExpr state text inv
    have longer : (state.1 ++ [text]).length = state.1.length + 1 := List.length_append
    refine ⟨⟨inv.1, fun call member => ?_⟩, fun id known => ?_, fun _ => ?_⟩
    · exact longer ▸ Nat.le_succ_of_le (inv.2 call member)
    · exact longer ▸ Nat.le_succ_of_le known
    · exact longer.ge

/-- Texts in front of the others move the numbers. -/
theorem textOf_append {base texts : List Str} {crawlId : CrawlId} (inside : crawlId ≤ texts.length) (more : List Str) :
    textOf (base ++ texts ++ more) (if crawlId = crawlIdNull then crawlIdNull else base.length + crawlId) =
      textOf texts crawlId := by
  cases crawlId with
  | zero => rfl
  | succ number =>
    have positive : ¬number.succ = crawlIdNull := Nat.succ_ne_zero number
    have moved : ¬base.length + number.succ = crawlIdNull := Nat.succ_ne_zero (base.length + number)
    have position : base.length + number.succ - 1 = base.length + number := rfl
    rw [if_neg positive, textOf, textOf, CrawlDb.stored, CrawlDb.stored, if_neg positive, if_neg moved, List.append_assoc,
      position, List.getElem?_append_right (Nat.le_add_right _ _), Nat.add_sub_cancel_left,
      List.getElem?_append_left (Nat.lt_of_succ_le inside)]
    rfl

/-! ### Loading into memory -/

section Memory

/-- The builder's crawl database in memory holds texts. -/
def IndexBuilder.Crawled (builder : IndexBuilder F MemCrawlDb) (puts : List Str) : Prop :=
  ∃ crawlDb, builder.crawlDb = some crawlDb ∧ crawlDb.Represents puts ∧ crawlDb.mData.length = puts.length

/-- There are ids for all texts in the crawl database. -/
def IndexBuilder.FewTexts (builder : IndexBuilder F MemCrawlDb) : Prop :=
  ∃ crawlDb, builder.crawlDb = some crawlDb ∧ crawlDb.mData.length < 2 ^ 32

/-- The ids of the database, behind texts that it had before. -/
def SameNumber (base : List Str) (id number : CrawlId) : Prop :=
  id = if number = crawlIdNull then crawlIdNull else base.length + number

/-- **The indexer stores the texts that are taken down.** -/
theorem simulating_recorder (base : List Str) : Simulating (harvestIndexer memDatabases) recorder
    (fun state recorded => ∃ builder, state = some builder ∧ builder.Crawled (base ++ recorded.1)) (SameNumber base)
    (fun _ _ => True) (fun state => ∃ builder, state = some builder ∧ builder.FewTexts) where
  null := by
    rintro _ number rfl
    constructor
    · intro null
      split at null
      · assumption
      · exact Nat.eq_zero_of_add_eq_zero_left null
    · rintro rfl
      rfl
  bothNull := rfl
  expression := by
    intro state token uri crawlId ok
    obtain ⟨after, computed, few⟩ := ok
    cases state with
    | none => cases computed
    | some builder =>
      cases indexed : builder.indexContentMath memDatabases token uri crawlId with
      | none =>
        simp only [harvestIndexer, Option.bind_some, indexed] at computed
        cases computed
      | some result =>
        obtain ⟨builder', number⟩ := result
        have kept := (indexContentMath_withCrawlDb indexed memDatabases.putData none).1
        simp only [harvestIndexer, Option.bind_some, indexed, Option.some.injEq] at computed ⊢
        subst computed
        rw [IndexBuilder.FewTexts, kept] at few
        refine ⟨⟨builder, rfl, few⟩, ?_⟩
        rintro recorded _ ⟨_, rfl, crawled⟩ -
        refine ⟨⟨builder', rfl, ?_⟩, fun {_ _} _ => trivial⟩
        rw [IndexBuilder.Crawled, kept]
        exact crawled
  text := by
    intro state text ok
    obtain ⟨after, computed, few⟩ := ok
    cases state with
    | none => cases computed
    | some builder =>
      cases stored : builder.indexCrawlData memDatabases text with
      | none =>
        simp only [harvestIndexer, Option.bind_some, stored] at computed
        cases computed
      | some result =>
        obtain ⟨builder', crawlId⟩ := result
        simp only [harvestIndexer, Option.bind_some, stored, Option.some.injEq] at computed ⊢
        subst computed
        unfold indexCrawlData at stored
        split at stored
        · rename_i crawlDb given
          obtain ⟨⟨crawlDb', id⟩, put, same⟩ := Option.bind_eq_some_iff.mp stored
          obtain ⟨rfl, rfl⟩ := Prod.mk.inj (Option.some.inj same)
          have put : crawlDb.putData text = some (crawlDb', id) := put
          obtain ⟨_, has, few⟩ := few
          obtain rfl := Option.some.inj has
          have grown : crawlDb'.mData.length = crawlDb.mData.length + 1 := by
            unfold MemCrawlDb.putData at put
            dsimp only at put
            split at put
            · cases put
            · obtain ⟨rfl, -⟩ := Prod.mk.inj (Option.some.inj put)
              exact List.length_append
          refine ⟨⟨builder, rfl, crawlDb, given, by omega⟩, ?_⟩
          rintro ⟨texts, _⟩ ⟨_, rfl, crawls, has, represents, length⟩
          obtain rfl := Option.some.inj (given.symm.trans has)
          obtain ⟨put', represents'⟩ := represents.putData (by omega) text
          obtain ⟨rfl, rfl⟩ := Prod.mk.inj (Option.some.inj (put.symm.trans put'))
          rw [List.append_assoc] at represents'
          refine ⟨⟨_, rfl, _, rfl, represents', ?_⟩, ?_⟩
          · refine grown.trans ?_
            show _ = (base ++ (texts ++ [text])).length
            rw [length, ← List.append_assoc, @List.length_append _ (base ++ texts) [text]]
            rfl
          · show (base ++ texts).length + 1 = if texts.length + 1 = crawlIdNull then crawlIdNull else _
            have notNull : ¬texts.length + 1 = crawlIdNull := Nat.succ_ne_zero _
            rw [if_neg notNull, List.length_append, Nat.add_assoc]
            rfl
        · rename_i none
          obtain ⟨rfl, rfl⟩ := Prod.mk.inj (Option.some.inj stored)
          obtain ⟨crawlDb, has, -⟩ := few
          rw [none] at has
          cases has

/-- What an expression has been indexed with: its data are the text with its crawl id. -/
def Carries (puts : List Str) (input : CmmlToken × Str × CrawlId) (expression : CmmlToken × Str × Str) : Prop :=
  input.1 = expression.1 ∧ input.2.1 = expression.2.1 ∧ textOf puts input.2.2 = expression.2.2

/-- **What has been loaded between two builders**: expressions have been indexed under crawl ids that have their data,
now and later. -/
structure Loads (before after : IndexBuilder MemFormulaDb MemCrawlDb) (expressions : List (CmmlToken × Str × Str))
    (inputs : List (CmmlToken × Str × CrawlId)) (numExpressions : Nat) : Prop where
  indexed : Indexed memDatabases (fun crawlDb crawlId => (crawlDb.getData crawlId).isSome) before inputs after
    numExpressions
  data : after.FewTexts → before.FewTexts ∧ ∀ base, before.Crawled base → ∃ texts, after.Crawled (base ++ texts) ∧
    ∀ more, List.Forall₂ (Carries (base ++ texts ++ more)) inputs expressions

theorem Loads.refl (builder : IndexBuilder MemFormulaDb MemCrawlDb) : Loads builder builder [] [] 0 :=
  ⟨.refl _ _ _, fun few => ⟨few, fun base crawled => ⟨[], by rwa [List.append_nil], fun _ => .nil⟩⟩⟩

theorem Loads.trans {first second third : IndexBuilder MemFormulaDb MemCrawlDb}
    {expressions expressions' : List (CmmlToken × Str × Str)} {inputs inputs' : List (CmmlToken × Str × CrawlId)}
    {number number' : Nat} (one : Loads first second expressions inputs number)
    (other : Loads second third expressions' inputs' number') :
    Loads first third (expressions ++ expressions') (inputs ++ inputs') ((number + number') % 2 ^ 64) := by
  refine ⟨one.indexed.trans other.indexed, fun few => ?_⟩
  obtain ⟨between, follows'⟩ := other.data few
  obtain ⟨before, follows⟩ := one.data between
  refine ⟨before, fun base crawled => ?_⟩
  obtain ⟨texts, crawled', carried⟩ := follows base crawled
  obtain ⟨texts', crawled'', carried'⟩ := follows' (base ++ texts) crawled'
  refine ⟨texts ++ texts', by rwa [← List.append_assoc], fun more => List.rel_append ?_ ?_⟩
  · rw [← List.append_assoc, List.append_assoc]
    exact carried (texts' ++ more)
  · rw [← List.append_assoc]
    exact carried' more

/-- **A harvest.** -/
theorem loadHarvestFromFd_loads {W : TextWriter} {builder : IndexBuilder MemFormulaDb MemCrawlDb}
    {events : List XmlEvent} {shouldProcessData : Bool} {result : IndexBuilder MemFormulaDb MemCrawlDb × Nat}
    (loaded : loadHarvestFromFd memDatabases W builder events shouldProcessData = some result) :
    ∃ inputs, Loads builder result.1 (expressionsIn W shouldProcessData events) inputs result.2 := by
  obtain ⟨data, read, later⟩ := Option.bind_eq_some_iff.mp loaded
  obtain ⟨builder', after, same⟩ := Option.bind_eq_some_iff.mp later
  obtain rfl := Option.some.inj same
  have start : ReadSoFar memDatabases (fun crawlDb crawlId => (crawlDb.getData crawlId).isSome) builder [] 0
      (some builder) := fun other same => Option.some.inj same ▸ Indexed.refl _ _ builder
  refine ⟨data.calls,
    (keeping_harvestIndexer remembers_memDatabases builder).processHarvest start read builder' after, fun few => ?_⟩
  have whole := fun base => (simulating_recorder base).foldlM events read ⟨builder', after, few⟩
  obtain ⟨⟨_, began, before⟩, -⟩ := whole []
  obtain rfl := Option.some.inj began
  refine ⟨before, fun base crawled => ?_⟩
  obtain ⟨other, ran, both⟩ := @(whole base).2 (init ([], []))
    (readBoth_init ⟨builder, rfl, by rwa [List.append_nil]⟩ trivial)
  obtain ⟨last, same, crawled'⟩ := both.processors
  obtain rfl := Option.some.inj (after.symm.trans same)
  have numbers : ∀ call ∈ other.calls, call.2.2 ≤ other.harvestProcessor.1.length :=
    (keeping_recorder.processHarvest ⟨rfl, fun _ member => absurd member List.not_mem_nil⟩ ran).2
  have taken : expressionsIn W shouldProcessData events =
      other.calls.map fun call => (call.1, call.2.1, textOf other.harvestProcessor.1 call.2.2) := by
    have run : recording W shouldProcessData events = some other := ran
    rw [expressionsIn, run]
    rfl
  refine ⟨other.harvestProcessor.1, crawled', fun more => ?_⟩
  rw [taken, List.forall₂_map_right_iff]
  refine (((List.forall₂_and_left _ _).mpr ⟨numbers, both.calls.flip⟩).imp ?_).flip
  rintro other call ⟨inside, sameToken, sameUri, sameNumber⟩
  refine ⟨sameToken, sameUri, ?_⟩
  rw [sameNumber]
  exact textOf_append inside more

/-- The files of a directory that are loaded: those with the right extension, up to one that cannot be opened. -/
def loadedFiles (config : HarvesterConfiguration) : List HarvestFile → List (List XmlEvent)
  | [] => []
  | file :: rest =>
    if hasSuffix file.path config.fileExtension then
      match file.events with
      | none => []
      | some events => events :: loadedFiles config rest
    else loadedFiles config rest

/-- **The expressions in the files of a directory** that are loaded. -/
def harvestExpressions (W : TextWriter) (config : HarvesterConfiguration) (files : List HarvestFile) :
    List (CmmlToken × Str × Str) := (loadedFiles config files).flatMap (expressionsIn W (!config.shouldIgnoreData))

variable {A : Accessor TmpIndex TmpIndexNode TmpIterator} {W : TextWriter} {config : HarvesterConfiguration} {fuel : Nat}

/-- What a step of `loadHarvests` has loaded, with the number of expressions. -/
def LoadsStep (before after : Loading MemFormulaDb MemCrawlDb) (expressions : List (CmmlToken × Str × Str)) : Prop :=
  ∃ inputs number, Loads before.indexBuilder after.indexBuilder expressions inputs number ∧
    (before.numExpressions < 2 ^ 64 → after.numExpressions = (before.numExpressions + number) % 2 ^ 64)

theorem LoadsStep.refl (state : Loading MemFormulaDb MemCrawlDb) : LoadsStep state state [] :=
  ⟨[], 0, .refl _, fun small => (Nat.mod_eq_of_lt small).symm⟩

theorem LoadsStep.trans {first second third : Loading MemFormulaDb MemCrawlDb}
    {expressions expressions' : List (CmmlToken × Str × Str)} (one : LoadsStep first second expressions)
    (other : LoadsStep second third expressions') : LoadsStep first third (expressions ++ expressions') := by
  obtain ⟨inputs, number, loads, counted⟩ := one
  obtain ⟨inputs', number', loads', counted'⟩ := other
  refine ⟨inputs ++ inputs', _, loads.trans loads', fun small => ?_⟩
  have here := counted small
  have there := counted' (by omega)
  omega

/-- Logging loads nothing. -/
theorem loadsStep_logFile {state state' : Loading MemFormulaDb MemCrawlDb}
    (logged : logFile A config fuel state = some state') : LoadsStep state state' [] := by
  unfold logFile at logged
  split at logged
  · obtain ⟨line, -, same⟩ := Option.bind_eq_some_iff.mp logged
    obtain rfl := Option.some.inj same
    exact ⟨[], 0, .refl _, fun small => (Nat.mod_eq_of_lt small).symm⟩
  · obtain rfl := Option.some.inj logged
    exact .refl _

/-- **A directory.** -/
theorem loadDirectory_loads (files : List HarvestFile) : ∀ {state state' : Loading MemFormulaDb MemCrawlDb},
    loadDirectory memDatabases A W config fuel files state = some state' →
      LoadsStep state state' (harvestExpressions W config files) := by
  induction files with
  | nil =>
    intro state state' loaded
    obtain rfl := Option.some.inj loaded
    exact .refl state
  | cons file rest ih =>
    intro state state' loaded
    obtain ⟨⟨next, opened⟩, first, later⟩ := Option.bind_eq_some_iff.mp loaded
    unfold loadFile at first
    rw [harvestExpressions, loadedFiles]
    by_cases suffix : hasSuffix file.path config.fileExtension = true
    · rw [if_pos suffix] at first ⊢
      cases given : file.events with
      | none =>
        -- the traversal stops here
        simp only [given, Option.some.injEq, Prod.mk.injEq] at first
        obtain ⟨rfl, rfl⟩ := first
        obtain rfl := Option.some.inj later
        exact .refl _
      | some events =>
        simp only [given, List.flatMap_cons] at first ⊢
        obtain ⟨⟨builder, number⟩, read, same⟩ := Option.bind_eq_some_iff.mp first
        obtain ⟨rfl, rfl⟩ := Prod.mk.inj (Option.some.inj same)
        obtain ⟨logged, wrote, done⟩ := Option.bind_eq_some_iff.mp later
        obtain ⟨inputs, loads⟩ := loadHarvestFromFd_loads read
        have file : LoadsStep state
            { state with indexBuilder := builder, numExpressions := (state.numExpressions + number) % 2 ^ 64 }
            (expressionsIn W (!config.shouldIgnoreData) events) := ⟨inputs, number, loads, fun _ => rfl⟩
        exact file.trans ((loadsStep_logFile wrote).trans (ih done))
    · rw [if_neg suffix] at first ⊢
      obtain ⟨rfl, rfl⟩ := Prod.mk.inj (Option.some.inj first)
      obtain ⟨logged, wrote, done⟩ := Option.bind_eq_some_iff.mp later
      exact (loadsStep_logFile wrote).trans (ih done)

/-- **`loadHarvests` indexes the expressions of the files**, one after the other. -/
theorem loadHarvests_loads {directories : List (List HarvestFile)} {builder : IndexBuilder MemFormulaDb MemCrawlDb}
    {loading : Loading MemFormulaDb MemCrawlDb}
    (loaded : loadHarvests memDatabases A W config fuel directories builder = some loading) :
    ∃ inputs, Loads builder loading.indexBuilder (directories.flatMap (harvestExpressions W config)) inputs
      loading.numExpressions := by
  have all : ∀ (directories : List (List HarvestFile)) {state state' : Loading MemFormulaDb MemCrawlDb},
      directories.foldlM (fun state files => loadDirectory memDatabases A W config fuel files state) state = some state' →
        LoadsStep state state' (directories.flatMap (harvestExpressions W config)) := by
    intro directories
    induction directories with
    | nil =>
      intro state state' done
      obtain rfl := Option.some.inj done
      exact .refl state
    | cons files rest ih =>
      intro state state' done
      rw [List.foldlM_cons, Option.bind_eq_bind, Option.bind_eq_some_iff] at done
      obtain ⟨next, first, later⟩ := done
      rw [List.flatMap_cons]
      exact (loadDirectory_loads files first).trans (ih later)
  obtain ⟨inputs, number, loads, counted⟩ := all directories loaded
  have same : loading.numExpressions = number := by
    have sum : loading.numExpressions = (0 + number) % 2 ^ 64 := counted (show (0 : Nat) < 2 ^ 64 by decide)
    rw [sum, Nat.zero_add, Nat.mod_eq_of_lt loads.indexed.small]
  exact ⟨inputs, same ▸ loads⟩

/-! ### Loading goes through -/

/-- What can be loaded behind texts: there are ids for all texts, and the expressions are well shaped. -/
def Loadable (base : List Str) (recorded : List Str × List CmmlToken) : Prop :=
  (base ++ recorded.1).length < 2 ^ 32 ∧ ∀ token ∈ recorded.2, WellShaped token

/-- A builder that has loaded, behind texts. -/
def LoadedBehind (base : List Str) (builder : IndexBuilder MemFormulaDb MemCrawlDb) : Prop :=
  builder.Loaded ∧ builder.Crawled base

/-- **What is taken down can be indexed.** -/
theorem simulating_indexer (base : List Str) : Simulating recorder (harvestIndexer memDatabases)
    (fun recorded state => ∃ builder, state = some builder ∧ LoadedBehind (base ++ recorded.1) builder)
    (fun number id => SameNumber base id number) (fun _ _ => True) (Loadable base) where
  null := fun same => ((simulating_recorder base).null same).symm
  bothNull := rfl
  expression := by
    intro recorded token uri crawlId ok
    obtain ⟨few, shaped⟩ := ok
    refine ⟨⟨few, fun other member => shaped other (List.mem_append_left _ member)⟩, ?_⟩
    rintro _ crawlId' ⟨builder, rfl, loaded, crawled⟩ -
    obtain ⟨builder', number, indexed, loaded'⟩ := @indexContentMath_loaded _ _ memDatabases _ loaded _
      (shaped token (List.mem_append_right _ List.mem_cons_self)) uri crawlId'
    have kept := (indexContentMath_withCrawlDb indexed memDatabases.putData none).1
    simp only [harvestIndexer, Option.bind_some, indexed]
    refine ⟨⟨builder', rfl, loaded', ?_⟩, fun {_ _} _ => trivial⟩
    rw [IndexBuilder.Crawled, kept]
    exact crawled
  text := by
    intro recorded text ok
    obtain ⟨few, shaped⟩ := ok
    have length : (base ++ (recorded.1 ++ [text])).length = (base ++ recorded.1).length + 1 := by
      rw [← List.append_assoc, List.length_append, List.length_singleton]
    have few : (base ++ (recorded.1 ++ [text])).length < 2 ^ 32 := few
    refine ⟨⟨by omega, shaped⟩, ?_⟩
    rintro _ ⟨builder, rfl, loaded, crawlDb, has, represents, held⟩
    obtain ⟨put, represents'⟩ := represents.putData (length ▸ few) text
    have stored : builder.indexCrawlData memDatabases text = some ({ builder with
        crawlDb := some ⟨crawlDb.mData ++ [((base ++ recorded.1).length + 1, text)], (base ++ recorded.1).length + 1⟩ },
        (base ++ recorded.1).length + 1) := by
      unfold indexCrawlData
      rw [has]
      show (crawlDb.putData text).bind _ = _
      rw [put]
      rfl
    have loaded' := indexCrawlData_loaded loaded stored
    simp only [harvestIndexer, Option.bind_some, stored]
    rw [List.append_assoc] at represents'
    refine ⟨⟨_, rfl, loaded', _, rfl, represents', ?_⟩, ?_⟩
    · show (crawlDb.mData ++ [_]).length = (base ++ (recorded.1 ++ [text])).length
      rw [List.length_append, held, length]
      rfl
    · show (base ++ recorded.1).length + 1 = if recorded.1.length + 1 = crawlIdNull then crawlIdNull else _
      have notNull : ¬recorded.1.length + 1 = crawlIdNull := Nat.succ_ne_zero _
      rw [if_neg notNull, List.length_append, Nat.add_assoc]
      rfl

/-- The texts that are taken down of a document. -/
def textsIn (W : TextWriter) (shouldProcessData : Bool) (events : List XmlEvent) : List Str :=
  ((recording W shouldProcessData events).map fun data => data.harvestProcessor.1).getD []

/-- **Files that can be loaded** behind texts: the reader comes to their ends, their expressions are well shaped, and
there are ids for all texts. -/
structure CanLoad (W : TextWriter) (config : HarvesterConfiguration) (base : List Str) (files : List (List XmlEvent)) :
    Prop where
  readable : ∀ events ∈ files, (recording W (!config.shouldIgnoreData) events).isSome
  shaped : ∀ expression ∈ files.flatMap (expressionsIn W (!config.shouldIgnoreData)), WellShaped expression.1
  few : (base ++ files.flatMap (textsIn W (!config.shouldIgnoreData))).length < 2 ^ 32

/-- Files in front of others. -/
theorem CanLoad.split {base : List Str} {files others : List (List XmlEvent)} (can : CanLoad W config base (files ++ others)) :
    CanLoad W config base files ∧
      CanLoad W config (base ++ files.flatMap (textsIn W (!config.shouldIgnoreData))) others := by
  obtain ⟨readable, shaped, few⟩ := can
  rw [List.flatMap_append] at shaped few
  rw [← List.append_assoc] at few
  refine ⟨⟨fun events member => readable events (List.mem_append_left _ member),
    fun expression member => shaped expression (List.mem_append_left _ member), ?_⟩,
    ⟨fun events member => readable events (List.mem_append_right _ member),
    fun expression member => shaped expression (List.mem_append_right _ member), few⟩⟩
  rw [List.length_append] at few
  omega

/-- A harvest. -/
theorem loadHarvestFromFd_completes {builder : IndexBuilder MemFormulaDb MemCrawlDb} {base : List Str}
    (behind : LoadedBehind base builder) {events : List XmlEvent} (can : CanLoad W config base [events]) :
    ∃ result, loadHarvestFromFd memDatabases W builder events (!config.shouldIgnoreData) = some result ∧
      LoadedBehind (base ++ textsIn W (!config.shouldIgnoreData) events) result.1 := by
  obtain ⟨readable, shaped, few⟩ := can
  rw [List.flatMap_singleton] at shaped few
  obtain ⟨data, recorded⟩ := Option.isSome_iff_exists.mp (readable events (List.mem_singleton_self _))
  rw [textsIn, recorded, Option.map_some, Option.getD_some] at few ⊢
  have tokens : data.calls.map Prod.fst = data.harvestProcessor.2 :=
    (keeping_recorder.processHarvest ⟨rfl, fun _ member => absurd member List.not_mem_nil⟩ recorded).1
  have loadable : Loadable base data.harvestProcessor := by
    refine ⟨few, fun token member => ?_⟩
    rw [← tokens] at member
    obtain ⟨call, inside, rfl⟩ := List.mem_map.mp member
    rw [expressionsIn, recorded] at shaped
    exact shaped _ (List.mem_map_of_mem inside)
  obtain ⟨other, ran, both⟩ := @((simulating_indexer base).foldlM events recorded loadable).2 (init (some builder))
    (readBoth_init ⟨builder, rfl, by rwa [List.append_nil]⟩ trivial)
  obtain ⟨builder', same, behind'⟩ := both.processors
  refine ⟨(builder', other.parsedExpr), ?_, behind'⟩
  have read : (processHarvest (harvestIndexer memDatabases) (!config.shouldIgnoreData) events (some builder) :
    Option (MwsHarvestSaxUserData W _)) = some other := ran
  rw [loadHarvestFromFd, read, Option.bind_eq_bind, Option.bind_some, same]
  rfl

/-- The files of a directory. -/
theorem loadDirectory_completes (quiet : config.logging = false) (files : List HarvestFile) :
    ∀ {state : Loading MemFormulaDb MemCrawlDb} {base : List Str}, LoadedBehind base state.indexBuilder →
      CanLoad W config base (loadedFiles config files) →
      ∃ state', loadDirectory memDatabases A W config fuel files state = some state' ∧
        LoadedBehind (base ++ (loadedFiles config files).flatMap (textsIn W (!config.shouldIgnoreData)))
          state'.indexBuilder := by
  induction files with
  | nil =>
    intro state base behind _
    exact ⟨state, rfl, by rwa [loadedFiles, List.flatMap_nil, List.append_nil]⟩
  | cons file rest ih =>
    intro state base behind can
    have logs : ∀ state : Loading MemFormulaDb MemCrawlDb, logFile A config fuel state = some state := fun state => by
      rw [logFile, if_neg (by rw [quiet]; exact Bool.false_ne_true)]
    unfold loadedFiles at can ⊢
    rw [loadDirectory, loadFile]
    by_cases suffix : hasSuffix file.path config.fileExtension = true
    · rw [if_pos suffix] at can ⊢
      rw [if_pos suffix]
      cases given : file.events with
      | none => exact ⟨state, rfl, by rwa [List.flatMap_nil, List.append_nil]⟩
      | some events =>
        simp only [given] at can
        rw [← List.singleton_append] at can
        obtain ⟨here, later⟩ := can.split
        obtain ⟨result, loaded, behind'⟩ := loadHarvestFromFd_completes behind here
        rw [List.flatMap_singleton] at later
        obtain ⟨state', done, behind''⟩ := @ih
          { state with indexBuilder := result.1, numExpressions := (state.numExpressions + result.2) % 2 ^ 64 } _ behind' later
        refine ⟨state', ?_, by rwa [List.flatMap_cons, ← List.append_assoc]⟩
        simp only [loaded, Option.bind_eq_bind, Option.bind_some, Option.pure_def, if_true, logs]
        exact done
    · rw [if_neg suffix] at can ⊢
      rw [if_neg suffix]
      obtain ⟨state', done, behind'⟩ := ih behind can
      refine ⟨state', ?_, behind'⟩
      simp only [Option.bind_eq_bind, Option.bind_some, if_true, logs]
      exact done

/-- **Loading goes through**, when nothing is logged. -/
theorem loadHarvests_completes (quiet : config.logging = false) (directories : List (List HarvestFile))
    {builder : IndexBuilder MemFormulaDb MemCrawlDb} {base : List Str} (behind : LoadedBehind base builder)
    (can : CanLoad W config base (directories.flatMap (loadedFiles config))) :
    ∃ loading, loadHarvests memDatabases A W config fuel directories builder = some loading ∧
      loading.indexBuilder.FewTexts ∧ loading.indexBuilder.Crawled
        (base ++ (directories.flatMap (loadedFiles config)).flatMap (textsIn W (!config.shouldIgnoreData))) := by
  have all : ∀ (directories : List (List HarvestFile)) {state : Loading MemFormulaDb MemCrawlDb} {base : List Str},
      LoadedBehind base state.indexBuilder → CanLoad W config base (directories.flatMap (loadedFiles config)) →
      ∃ state', directories.foldlM (fun state files => loadDirectory memDatabases A W config fuel files state) state =
          some state' ∧
        LoadedBehind (base ++ (directories.flatMap (loadedFiles config)).flatMap (textsIn W (!config.shouldIgnoreData)))
          state'.indexBuilder := by
    intro directories
    induction directories with
    | nil =>
      intro state base behind _
      exact ⟨state, rfl, by rwa [List.flatMap_nil, List.flatMap_nil, List.append_nil]⟩
    | cons files rest ih =>
      intro state base behind can
      rw [List.flatMap_cons] at can ⊢
      obtain ⟨here, later⟩ := can.split
      obtain ⟨next, first, behind'⟩ := @loadDirectory_completes A W config fuel quiet files state base behind here
      obtain ⟨state', done, behind''⟩ := ih behind' later
      refine ⟨state', ?_, by rwa [List.flatMap_append, ← List.append_assoc]⟩
      rw [List.foldlM_cons, first]
      exact done
  obtain ⟨loading, loaded, -, crawlDb, has, represents, held⟩ := @all directories ⟨builder, 0, []⟩ base behind can
  exact ⟨loading, loaded, ⟨crawlDb, has, held ▸ can.few⟩, crawlDb, has, represents, held⟩

end Memory

end MathWebSearch
