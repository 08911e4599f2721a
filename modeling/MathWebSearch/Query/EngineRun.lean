/-
**Runs of the engine on an exported index** (`query_engine_run`).

* `queryEngineRun_explores` — a run explores `hits`, from the root and with nothing solved.
* `queryEngineRun_sound` — below `2 ^ 34` bytes every call is for a leaf that spells an instance of the query,
  no assertion fails and the recursion ends.
* `queryEngineRun_once_iff` — below `2 ^ 34` bytes every matching leaf is reported exactly once if and only if
  every variable grows along nodes with one child.
-/

import MathWebSearch.Index.Addressing
import MathWebSearch.Query.EngineHits

namespace MathWebSearch

open PrefixCode PatternWord TmpIndexNode

namespace Engine

section Runs

variable {index : TmpIndex} {handle : IndexHandle} {query : EncodedFormula}

/-- A run on a query that fits the stack. -/
theorem queryEngineRun_eq (fits : query.length ≤ maxQueryStackSize) (resultCb : List Nat → QueryReturn) (fuel : Nat) :
    queryEngineRun handle query resultCb fuel =
      processQueryToken handle.image resultCb fuel ⟨query, handle.root, [], fun _ => ⟨false, []⟩, 0, []⟩ := by
  rw [queryEngineRun, queryCtxtInit, if_pos fits]
  rfl

/-- **A run explores `hits`** and restores the context. -/
theorem queryEngineRun_explores (root : Represents Numbered handle.image index.root handle.root)
    (sound : Sound (fun token => token.isVar = false) 1 index.root) (complete : Closes queryArity 1 query)
    (resultCb : List Nat → QueryReturn) {fuel : Nat} (enough : 3 * index.root.height + 4 ≤ fuel) :
    Explores handle resultCb handle.root [] (hits (fun _ => none) query index.root)
      (Restored ⟨query, handle.root, [], fun _ => ⟨false, []⟩, 0, []⟩)
      (queryEngineRun handle query resultCb fuel) := by
  by_cases fits : query.length ≤ maxQueryStackSize
  · rw [queryEngineRun_eq fits]
    have ready : Ready handle index.root 1 ⟨query, handle.root, [], fun _ => ⟨false, []⟩, 0, []⟩ :=
      ⟨⟨root, sound, rfl, nofun⟩, complete⟩
    exact processQueryToken_spec handle resultCb (index.root.height + 1) fuel _ (Nat.lt_succ_self _) enough ready
  · rw [queryEngineRun, queryCtxtInit, if_neg fits]
    exact Or.inl rfl

/-- A leaf is at the address its path leads to. -/
theorem reach_leaf (root : Represents Numbered handle.image index.root handle.root)
    (shape : WellFormed 1 index.root) {path : EncodedFormula} {leaf : TmpLeaf}
    (member : (path, leaf) ∈ index.leaves) : ∃ address, reach handle path handle.root = some address ∧
      nodeType handle.image address = some leafNodeType ∧ leafFormulaId handle.image address = some leaf.id := by
  have closes := closes_of_mem_leaves shape member
  have stored := (mem_leaves_iff shape).mp member
  rw [leafAt_eq_walk, Option.bind_eq_some_iff] at stored
  obtain ⟨last, walked, isLeaf⟩ := stored
  have related := reach_eq path root (show WellFormed (0 + 1) index.root from shape) closes
  rw [walked] at related
  generalize reach handle path handle.root = reached at related
  cases related with
  | @some _ address represents =>
    obtain ⟨holds, numbered⟩ := represents.leaf isLeaf
    exact ⟨address, rfl, nodeType_of_leaf holds, leafFormulaId_of_leaf holds numbered⟩

/-! ### Soundness -/

/-- **Every call of a run is for a leaf that spells an instance of the query**; it ends without a failed
assertion, unless the arrays are too small. -/
def RunsSoundly (index : TmpIndex) (handle : IndexHandle) (query : EncodedFormula) (result : EngineResult) : Prop :=
  result = .error .overflow ∨ ∃ ret ctxt, result = .ok (ret, ctxt) ∧
    ∀ address ∈ ctxt.calls, nodeType handle.image address = some leafNodeType ∧
      ∃ path leaf substitution, (path, leaf) ∈ index.leaves ∧ reach handle path handle.root = some address ∧
        IsInstance substitution query path

theorem runsSoundly_of_represents (root : Represents Numbered handle.image index.root handle.root)
    (sound : Sound (fun token => token.isVar = false) 1 index.root) (complete : Closes queryArity 1 query)
    (resultCb : List Nat → QueryReturn) {fuel : Nat} (enough : 3 * index.root.height + 4 ≤ fuel) :
    RunsSoundly index handle query (queryEngineRun handle query resultCb fuel) := by
  rcases queryEngineRun_explores root sound complete resultCb enough with failed |
    ⟨ret, ctxt, new, done, rest, computed, made, split, reached, _⟩
  · exact Or.inl failed
  · refine Or.inr ⟨ret, ctxt, computed, fun address member => ?_⟩
    rw [made, List.nil_append] at member
    obtain ⟨number, inside, rfl⟩ := List.getElem_of_mem member
    have within : number < done.length := by rw [reached.length_eq]; exact inside
    have found : reach handle done[number] handle.root = some new[number] := reached.get within inside
    have hit : done[number] ∈ hits (fun _ => none) query index.root := by
      rw [split]
      exact List.mem_append_left _ (List.getElem_mem within)
    obtain ⟨⟨substitution, _, inst⟩, isLeaf⟩ := mem_hits query sound.shape complete
      (fun _ _ found => by cases found) hit
    obtain ⟨leaf, stored⟩ := Option.isSome_iff_exists.mp isLeaf
    have among := (mem_leaves_iff sound.shape).mpr stored
    obtain ⟨address, reachedLeaf, type, _⟩ := reach_leaf root sound.shape among
    obtain rfl := Option.some.inj (found.symm.trans reachedLeaf)
    exact ⟨type, _, leaf, substitution, among, found, inst⟩

/-! ### Completeness -/

/-- **Every leaf that spells an instance of the query is reported exactly once.** -/
def ReportsOnce (index : TmpIndex) (handle : IndexHandle) (query : EncodedFormula) (calls : List Nat) : Prop :=
  ∀ path leaf substitution, (path, leaf) ∈ index.leaves → IsInstance substitution query path →
    ∃ address, reach handle path handle.root = some address ∧ calls.count address = 1

/-- Every variable grows straight in every instance that is a leaf. -/
def GrowsStraight (index : TmpIndex) (query : EncodedFormula) : Prop :=
  ∀ path leaf substitution, (path, leaf) ∈ index.leaves → IsInstance substitution query path →
    Straight (fun _ => none) substitution query index.root

/-- The addresses of different leaves differ. -/
theorem path_eq_of_reach (root : Represents Numbered handle.image index.root handle.root)
    (shape : WellFormed 1 index.root) (distinct : (index.leaves.map fun entry => entry.2.id).Nodup)
    {first second : EncodedFormula × TmpLeaf} (inFirst : first ∈ index.leaves) (inSecond : second ∈ index.leaves)
    (same : reach handle first.1 handle.root = reach handle second.1 handle.root) : first = second := by
  obtain ⟨address, reached, _, id⟩ := reach_leaf root shape inFirst
  obtain ⟨address', reached', _, id'⟩ := reach_leaf root shape inSecond
  obtain rfl := Option.some.inj (reached.symm.trans (same.trans reached'))
  exact List.inj_on_of_nodup_map distinct inFirst inSecond (Option.some.inj (id.symm.trans id'))

/-- Counting the calls is counting the words. -/
theorem count_calls (root : Represents Numbered handle.image index.root handle.root)
    (shape : WellFormed 1 index.root) (distinct : (index.leaves.map fun entry => entry.2.id).Nodup)
    {entry : EncodedFormula × TmpLeaf} (member : entry ∈ index.leaves) {address : Nat}
    (reached : reach handle entry.1 handle.root = some address) {words : List EncodedFormula} {calls : List Nat}
    (made : List.Forall₂ (fun word leaf => reach handle word handle.root = some leaf) words calls)
    (leafWords : ∀ word ∈ words, ∃ leaf, (word, leaf) ∈ index.leaves) :
    calls.count address = words.count entry.1 := by
  induction made with
  | nil => rfl
  | @cons word call words calls here _ ih =>
    have same : call = address ↔ word = entry.1 := by
      obtain ⟨leaf, among⟩ := leafWords word List.mem_cons_self
      constructor
      · rintro rfl
        exact congrArg Prod.fst (path_eq_of_reach root shape distinct among member (here.trans reached.symm))
      · rintro rfl
        exact Option.some.inj (here.symm.trans reached)
    rw [List.count_cons, List.count_cons, ih fun other among => leafWords other (List.mem_cons_of_mem _ among)]
    simp only [beq_iff_eq, same]

/-- **A run that is never stopped reports every matching leaf exactly once if and only if every variable grows
straight.** -/
theorem reportsOnce_iff (root : Represents Numbered handle.image index.root handle.root)
    (sound : Sound (fun token => token.isVar = false) 1 index.root) (complete : Closes queryArity 1 query)
    (distinct : (index.leaves.map fun entry => entry.2.id).Nodup) {fuel : Nat}
    (enough : 3 * index.root.height + 4 ≤ fuel) :
    queryEngineRun handle query (fun _ => .queryContinue) fuel = .error .overflow ∨
      ∃ ctxt, queryEngineRun handle query (fun _ => .queryContinue) fuel = .ok (.queryContinue, ctxt) ∧
        (ReportsOnce index handle query ctxt.calls ↔ GrowsStraight index query) := by
  rcases queryEngineRun_explores root sound complete (fun _ => .queryContinue) enough with failed |
    ⟨ret, ctxt, new, done, rest, computed, made, split, reached, ended, back⟩
  · exact Or.inl failed
  · have continued : ret = .queryContinue := by
      by_contra other
      exact other (ended other).symm
    obtain ⟨rfl, _⟩ := back continued
    rw [List.append_nil] at split
    rw [List.nil_append] at made
    subst continued split
    refine Or.inr ⟨ctxt, computed, ?_⟩
    have leafWords : ∀ word ∈ hits (fun _ => none) query index.root, ∃ leaf, (word, leaf) ∈ index.leaves := by
      intro word hit
      obtain ⟨_, isLeaf⟩ := mem_hits query sound.shape complete (fun _ _ found => by cases found) hit
      obtain ⟨leaf, stored⟩ := Option.isSome_iff_exists.mp isLeaf
      exact ⟨leaf, (mem_leaves_iff sound.shape).mpr stored⟩
    have each : ∀ path leaf substitution, (path, leaf) ∈ index.leaves → IsInstance substitution query path →
        ((∃ address, reach handle path handle.root = some address ∧ ctxt.calls.count address = 1) ↔
          Straight (fun _ => none) substitution query index.root) := by
      intro path leaf substitution member inst
      obtain ⟨address, found, _⟩ := reach_leaf root sound.shape member
      have stored := (mem_leaves_iff sound.shape).mp member
      rw [← count_hits query sound.shape complete (fun _ _ found => by cases found) inst (by rw [stored]; rfl),
        made]
      have counted := count_calls root sound.shape distinct member found reached leafWords
      constructor
      · rintro ⟨other, foundOther, once⟩
        obtain rfl := Option.some.inj (found.symm.trans foundOther)
        rw [← counted, once]
      · intro once
        exact ⟨address, found, by rw [counted, once]⟩
    constructor
    · intro once path leaf substitution member inst
      exact (each path leaf substitution member inst).mp (once path leaf substitution member inst)
    · intro straight path leaf substitution member inst
      exact (each path leaf substitution member inst).mpr (straight path leaf substitution member inst)

end Runs

/-! ### Exported indexes -/

section Exported

variable {index : TmpIndex}

/-- What an export gives the engine, if the root starts below byte `2 ^ 34`. -/
theorem exported_represents (built : index.Built) (nonempty : ¬ index.IsEmpty) :
    ∃ enough mswr file, (∀ fuel, enough ≤ fuel →
        index.exportToMemsector memsectorLongOffStart fuel Memsector.create = some (mswr, file)) ∧
      (MemsectorHeader.size + TmpIndex.imageSizeOf index.root.children < 2 ^ 34 →
        ∃ header, Memsector.load file = some header ∧
          Represents Numbered file index.root (Memsector.getRoot header) ∧
          (index.leaves.map fun entry => entry.2.id).Nodup) := by
  have shape := built.wellFormed nonempty
  have numbered : ∀ entry ∈ index.leaves, Numbered entry.2 := built.id_lt
  obtain ⟨enough, mswr, file, computed, _, loaded⟩ :=
    TmpIndex.exported_spec (show memsectorLongOffStart ≤ 2 ^ 32 from le_rfl) shape numbered
  refine ⟨enough, mswr, file, computed, fun small => ?_⟩
  obtain ⟨few, _, header, load, rep⟩ := loaded (Or.inr ⟨rfl, small⟩)
  exact ⟨header, load, ⟨⟨1, shape⟩, rep⟩, built.ids_nodup few.le⟩

theorem sound_of_built (built : index.Built) (nonempty : ¬ index.IsEmpty) :
    Sound (fun token => token.isVar = false) 1 index.root := by
  refine ⟨built.wellFormed nonempty, fun entry member token among => ?_⟩
  have stored := (mem_leaves_iff (built.wellFormed nonempty)).mp member
  exact ((built.stored stored).2 token among).isVar_eq

/-- **The engine is sound** on an exported index whose root starts below byte `2 ^ 34`. -/
theorem queryEngineRun_sound (built : index.Built) (nonempty : ¬ index.IsEmpty) :
    ∃ enough mswr file, (∀ fuel, enough ≤ fuel →
        index.exportToMemsector memsectorLongOffStart fuel Memsector.create = some (mswr, file)) ∧
      (MemsectorHeader.size + TmpIndex.imageSizeOf index.root.children < 2 ^ 34 →
        ∃ header, Memsector.load file = some header ∧
          ∀ (query : EncodedFormula) (resultCb : List Nat → QueryReturn), IsComplete queryArity query →
            ∃ enough, ∀ fuel, enough ≤ fuel → RunsSoundly index ⟨file, Memsector.getRoot header⟩ query
              (queryEngineRun ⟨file, Memsector.getRoot header⟩ query resultCb fuel)) := by
  obtain ⟨enough, mswr, file, computed, exported⟩ := exported_represents built nonempty
  refine ⟨enough, mswr, file, computed, fun small => ?_⟩
  obtain ⟨header, load, root, _⟩ := exported small
  refine ⟨header, load, fun query resultCb complete => ⟨3 * index.root.height + 4, fun fuel more => ?_⟩⟩
  exact runsSoundly_of_represents root (sound_of_built built nonempty)
    ((isComplete_iff_closes query).mp complete) resultCb more

/-- **The engine reports every matching leaf exactly once if and only if every variable grows along nodes with one
child**, on an exported index whose root starts below byte `2 ^ 34`. -/
theorem queryEngineRun_once_iff (built : index.Built) (nonempty : ¬ index.IsEmpty) :
    ∃ enough mswr file, (∀ fuel, enough ≤ fuel →
        index.exportToMemsector memsectorLongOffStart fuel Memsector.create = some (mswr, file)) ∧
      (MemsectorHeader.size + TmpIndex.imageSizeOf index.root.children < 2 ^ 34 →
        ∃ header, Memsector.load file = some header ∧
          ∀ query : EncodedFormula, IsComplete queryArity query → ∃ enough, ∀ fuel, enough ≤ fuel →
            queryEngineRun ⟨file, Memsector.getRoot header⟩ query (fun _ => .queryContinue) fuel =
                .error .overflow ∨
              ∃ ctxt, queryEngineRun ⟨file, Memsector.getRoot header⟩ query (fun _ => .queryContinue) fuel =
                  .ok (.queryContinue, ctxt) ∧
                (ReportsOnce index ⟨file, Memsector.getRoot header⟩ query ctxt.calls ↔
                  GrowsStraight index query)) := by
  obtain ⟨enough, mswr, file, computed, exported⟩ := exported_represents built nonempty
  refine ⟨enough, mswr, file, computed, fun small => ?_⟩
  obtain ⟨header, load, root, distinct⟩ := exported small
  refine ⟨header, load, fun query complete => ⟨3 * index.root.height + 4, fun fuel more => ?_⟩⟩
  exact reportsOnce_iff root (sound_of_built built nonempty) ((isComplete_iff_closes query).mp complete) distinct more

end Exported

/-! ### Runs on fixed indexes -/

/-- A query variable. -/
def queryVar : EncodedToken := encodedToken 65 0

open TmpIndex (unaryToken plainToken otherToken deepIndex)

/-- On the index of `b` and `f(f(a))`, the query `f(x)`. -/
theorem queryEngineRun_sound_small : ∃ enough mswr file header,
    (∀ fuel, enough ≤ fuel →
      (deepIndex 1).exportToMemsector memsectorLongOffStart fuel Memsector.create = some (mswr, file)) ∧
    Memsector.load file = some header ∧ ∃ enough, ∀ fuel, enough ≤ fuel →
      RunsSoundly (deepIndex 1) ⟨file, Memsector.getRoot header⟩ [unaryToken, queryVar]
        (queryEngineRun ⟨file, Memsector.getRoot header⟩ [unaryToken, queryVar] (fun _ => .queryContinue) fuel) := by
  obtain ⟨built, nonempty⟩ := TmpIndex.deepIndex_built 1
  obtain ⟨enough, mswr, file, computed, sound⟩ := queryEngineRun_sound built nonempty
  obtain ⟨header, load, runs⟩ := sound (by rw [TmpIndex.imageSizeOf_deepIndex]; decide)
  exact ⟨enough, mswr, file, header, computed, load,
    runs _ _ ((isComplete_iff_closes _).mpr (by decide))⟩

/-- The root offset of a deep tower points into the header, where there is no node: `assert(false)`. -/
theorem queryEngineRun_deep : ∃ enough mswr file header,
    (deepIndex (2 ^ 30 - 3)).Built ∧ ¬ (deepIndex (2 ^ 30 - 3)).IsEmpty ∧
    (∀ fuel, enough ≤ fuel →
      (deepIndex (2 ^ 30 - 3)).exportToMemsector memsectorLongOffStart fuel Memsector.create = some (mswr, file)) ∧
    Memsector.load file = some header ∧ IsComplete queryArity [otherToken] ∧
    (∀ fuel, queryEngineRun ⟨file, Memsector.getRoot header⟩ [otherToken] (fun _ => .queryContinue) (fuel + 1) =
      .error .assertion) ∧
    ¬ ∃ enough, ∀ fuel, enough ≤ fuel →
      RunsSoundly (deepIndex (2 ^ 30 - 3)) ⟨file, Memsector.getRoot header⟩ [otherToken]
        (queryEngineRun ⟨file, Memsector.getRoot header⟩ [otherToken] (fun _ => .queryContinue) fuel) := by
  generalize depthEq : 2 ^ 30 - 3 = depth
  obtain ⟨built, nonempty⟩ := TmpIndex.deepIndex_built depth
  obtain ⟨written, emitted, root, size⟩ := TmpIndex.emit_deepIndex (show depth + 3 = 2 ^ 30 by omega)
  obtain ⟨written', emitted', enough, computed⟩ :=
    TmpIndex.exportToMemsector_eq memsectorLongOffStart (built.wellFormed nonempty) Memsector.create
  obtain rfl := Option.some.inj (emitted'.symm.trans emitted)
  have small : (Memsector.save written'.1 written'.2).length < 2 ^ 64 := by
    rw [Memsector.length_save, size, MemsectorHeader.size]
    omega
  have address : Memsector.getRoot (Memsector.savedHeader written'.1 written'.2) = 12 := by
    rw [Memsector.getRoot_savedHeader _ (by rw [root]; decide), root]
    rfl
  have type : nodeType (Memsector.save written'.1 written'.2) 12 = some 0 := by
    have holds := TmpIndex.holds_indexSize (Memsector.savedHeader written'.1 written'.2) written'.1.data
    rw [Memsector.indexSize_savedHeader _ _ small, size] at holds
    exact nodeType_of_holds holds
  have runs : ∀ fuel, queryEngineRun
      ⟨Memsector.save written'.1 written'.2, Memsector.getRoot (Memsector.savedHeader written'.1 written'.2)⟩
      [otherToken] (fun _ => .queryContinue) (fuel + 1) = .error .assertion := by
    intro fuel
    rw [address, queryEngineRun_eq (by decide), processQueryToken_constant_eq _ _ rfl (by decide) rfl, type]
    rfl
  refine ⟨enough, written'.1, _, _, built, nonempty, computed, Memsector.load_save _ small (by rw [root]; decide),
    (isComplete_iff_closes _).mpr (by decide), runs, ?_⟩
  rintro ⟨enough, sound⟩
  rcases sound (enough + 1) (Nat.le_succ _) with failed | ⟨_, _, returned, _⟩
  · rw [runs] at failed
    cases failed
  · rw [runs] at returned
    cases returned

/-- On the index of `b` and `f(f(a))`, the query `f(x)`. -/
theorem queryEngineRun_once_small : ∃ enough mswr file header,
    (∀ fuel, enough ≤ fuel →
      (deepIndex 1).exportToMemsector memsectorLongOffStart fuel Memsector.create = some (mswr, file)) ∧
    Memsector.load file = some header ∧ ∃ enough, ∀ fuel, enough ≤ fuel →
      queryEngineRun ⟨file, Memsector.getRoot header⟩ [unaryToken, queryVar] (fun _ => .queryContinue) fuel =
          .error .overflow ∨
        ∃ ctxt, queryEngineRun ⟨file, Memsector.getRoot header⟩ [unaryToken, queryVar] (fun _ => .queryContinue)
            fuel = .ok (.queryContinue, ctxt) ∧
          (ReportsOnce (deepIndex 1) ⟨file, Memsector.getRoot header⟩ [unaryToken, queryVar] ctxt.calls ↔
            GrowsStraight (deepIndex 1) [unaryToken, queryVar]) := by
  obtain ⟨built, nonempty⟩ := TmpIndex.deepIndex_built 1
  obtain ⟨enough, mswr, file, computed, once⟩ := queryEngineRun_once_iff built nonempty
  obtain ⟨header, load, runs⟩ := once (by rw [TmpIndex.imageSizeOf_deepIndex]; decide)
  exact ⟨enough, mswr, file, header, computed, load, runs _ ((isComplete_iff_closes _).mpr (by decide))⟩

/-- The index of two plain symbols. -/
def plainIndex : TmpIndex := (TmpIndex.empty 0).insertAll [[plainToken], [otherToken]]

theorem plainIndex_built : plainIndex.Built ∧ ¬ plainIndex.IsEmpty := by
  have codes : ∀ formula ∈ ([[plainToken], [otherToken]] : List EncodedFormula),
      formula.IsPrefixCode ∧ formula.VariableFree := by
    intro formula member
    rcases List.mem_cons.mp member with rfl | member
    · exact ⟨(isComplete_iff_closes _).mpr (by decide), by decide⟩
    · obtain rfl := List.mem_singleton.mp member
      exact ⟨(isComplete_iff_closes _).mpr (by decide), by decide⟩
  obtain ⟨built, nonempty⟩ := (TmpIndex.Built.empty 0).insertAll codes
  exact ⟨built, nonempty (List.cons_ne_nil _ _)⟩

/-- The calls a run on the exported index makes, and where a word leads. -/
def observe (index : TmpIndex) (fuel : Nat) (query word : EncodedFormula) : Option (List Nat × Option Nat) := do
  let exported ← index.exportToMemsector memsectorLongOffStart fuel Memsector.create
  let header ← Memsector.load exported.2
  let handle : IndexHandle := ⟨exported.2, Memsector.getRoot header⟩
  match queryEngineRun handle query (fun _ => .queryContinue) fuel with
  | .ok (.queryContinue, ctxt) => some (ctxt.calls, reach handle word handle.root)
  | _ => none

/-- **A variable at the root** makes the engine report the first of two formulas twice, and the second not at all. -/
theorem queryEngineRun_plainIndex : ∃ mswr file header ctxt, plainIndex.Built ∧ ¬ plainIndex.IsEmpty ∧
    plainIndex.exportToMemsector memsectorLongOffStart 20 Memsector.create = some (mswr, file) ∧
    Memsector.load file = some header ∧ IsComplete queryArity [queryVar] ∧
    queryEngineRun ⟨file, Memsector.getRoot header⟩ [queryVar] (fun _ => .queryContinue) 20 =
      .ok (.queryContinue, ctxt) ∧ ctxt.calls = [28, 28] ∧
    ¬ ReportsOnce plainIndex ⟨file, Memsector.getRoot header⟩ [queryVar] ctxt.calls := by
  have observed : observe plainIndex 20 [queryVar] [otherToken] = some ([28, 28], some 36) := by decide +kernel
  rw [observe, Option.bind_eq_bind, Option.bind_eq_some_iff] at observed
  obtain ⟨⟨mswr, file⟩, exported, observed⟩ := observed
  rw [Option.bind_eq_bind, Option.bind_eq_some_iff] at observed
  obtain ⟨header, load, observed⟩ := observed
  dsimp only at observed
  split at observed
  · rename_i ctxt returned
    obtain ⟨calls, reached⟩ := Prod.mk.inj (Option.some.inj observed)
    refine ⟨mswr, file, header, ctxt, plainIndex_built.1, plainIndex_built.2, exported, load,
      (isComplete_iff_closes _).mpr (by decide), returned, calls, fun once => ?_⟩
    have member : ([otherToken], (⟨2, 0⟩ : TmpLeaf)) ∈ plainIndex.leaves := by decide +kernel
    have isVar : queryVar.isVar = true := by decide
    have closes : Closes EncodedToken.arity 1 [otherToken] := by decide
    have inst : IsInstance (fun _ => [otherToken]) [queryVar] [otherToken] := .named (role_of_var isVar) closes .nil
    obtain ⟨address, found, counted⟩ := once _ _ _ member inst
    obtain rfl := Option.some.inj (reached.symm.trans found)
    rw [calls] at counted
    exact absurd counted (by decide)
  · cases observed

end Engine

end MathWebSearch
