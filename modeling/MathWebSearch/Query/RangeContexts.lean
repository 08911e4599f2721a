/-
**The contexts of ranges** (`RangeCtxt`, in the runs of `SearchContext::getResult`).

* `Walks` — the invariant of a run: the contexts in front of the current token are solved, and the solutions they have
  still to offer are candidates for their tokens.
* `visits_front` — where the tokens in front of a range have a solution, the run arrives at the range.
* `rangeContexts_iff` — every iterator is set at the end exactly if matches are asked for and the part of the query in
  front of every range is matched by a path of the index; `nextSol` is called on solved contexts only.
-/

import MathWebSearch.Query.FormulaSearch
import MathWebSearch.Query.WatchedRuns

namespace MathWebSearch

open PrefixCode PatternWord TmpIndexNode

/-! ### What `solve` and `nextSol` set -/

section Setting

variable {D : Doubles} {Index Node Iterator : Type} {A : Accessor Index Node Iterator} {index : Index}
  {decoder : Option ExpressionDecoder} {fuel : Nat} {ctxt ctxt' : BacktrackCtxt D Node Iterator} {node : Option Node}

namespace BacktrackCtxt

/-- The end of both sets the iterator, and `isSolved` as there is a solution or not. -/
theorem scan_set {bounds : D.Carrier × D.Carrier} {root : Node} {iterator : Iterator}
    (scanned : scan A index decoder fuel bounds root iterator = some (ctxt, node)) :
    ctxt.assigned = true ∧ ctxt.isSolved = node.isSome := by
  obtain ⟨iterator', -, scanned⟩ := Option.bind_eq_some_iff.mp scanned
  obtain ⟨token, -, scanned⟩ := Option.bind_eq_some_iff.mp scanned
  obtain ⟨valid, -, scanned⟩ := Option.bind_eq_some_iff.mp scanned
  cases valid with
  | true =>
    obtain ⟨child, -, scanned⟩ := Option.bind_eq_some_iff.mp scanned
    obtain ⟨next, -, same⟩ := Option.bind_eq_some_iff.mp scanned
    cases same
    exact ⟨rfl, rfl⟩
  | false =>
    cases scanned
    exact ⟨rfl, rfl⟩

theorem solve_set {root : Node} (solves : ctxt.solve A index decoder fuel root = some (ctxt', node)) :
    ctxt'.assigned = true ∧ (node.isSome = true → ctxt'.isSolved = true) := by
  cases ctxt with
  | qvar isSolved iterator =>
    obtain ⟨⟨iterator', node', events⟩, -, same⟩ := Option.bind_eq_some_iff.mp solves
    cases same
    exact ⟨rfl, fun found => (congrArg (isSolved || ·) found).trans (Bool.or_true _)⟩
  | range isSolved bounds oldRoot oldIterator =>
    obtain ⟨iterator, -, scanned⟩ := Option.bind_eq_some_iff.mp solves
    exact ⟨(scan_set scanned).1, fun found => (scan_set scanned).2.trans found⟩

theorem nextSol_set (asks : ctxt.nextSol A index decoder fuel = some (ctxt', node)) :
    ctxt'.assigned = ctxt.assigned ∧ (ctxt.isSolved = true → node.isSome = true → ctxt'.isSolved = true) := by
  cases ctxt with
  | qvar solved iterator =>
    obtain ⟨⟨iterator', node', events⟩, -, same⟩ := Option.bind_eq_some_iff.mp asks
    cases same
    exact ⟨rfl, fun before found => Bool.and_eq_true_iff.mpr ⟨before, found⟩⟩
  | range solved bounds root iterator =>
    obtain ⟨it, rfl, rooted⟩ := Option.bind_eq_some_iff.mp asks
    obtain ⟨node', rfl, moved⟩ := Option.bind_eq_some_iff.mp rooted
    by_cases more : A.hasNext it = true
    · rw [if_pos more] at moved
      exact ⟨(scan_set moved).1, fun _ found => (scan_set moved).2.trans found⟩
    · rw [if_neg more] at moved
      cases moved
      exact ⟨rfl, fun _ found => absurd found Bool.false_ne_true⟩

end BacktrackCtxt

end Setting

namespace SearchContext

variable {D : Doubles}

/-! ### The walk of a run -/

section Walk

variable (context : SearchContext D) (index : TmpIndex)

/-- What a variable or range may stand for at a node, with the nodes behind. -/
def candidates (role : TokenRole) (node : TmpIndexNode) : List (EncodedFormula × TmpIndexNode) :=
  match role with
  | .restricted id => accepted context id node.children
  | _ => node.terms 1

/-- **A walk along the front of a query**: the words of the solved entries lead to the node, and what an entry has still
to offer are candidates for its token. -/
inductive Walks (table : List (Entry D)) : EncodedFormula → Solved → TmpIndexNode → Prop
  | start : Walks table [] [] index.root
  | constant {front : EncodedFormula} {solved : Solved} {node next : TmpIndexNode} {token : EncodedToken}
      (before : Walks table front solved node) (role : token.role = .constant) (child : node.child token = some next) :
      Walks table (front ++ [token]) solved next
  | again {front : EncodedFormula} {solved : Solved} {node next : TmpIndexNode} {token : EncodedToken} {id : Nat}
      {word : EncodedFormula} (before : Walks table front solved node) (role : token.role = .named id)
      (known : solved.bound id = some word) (reached : walk word node = some next) :
      Walks table (front ++ [token]) solved next
  | special {front : EncodedFormula} {solved : Solved} {node next : TmpIndexNode} {token : EncodedToken}
      {word : EncodedFormula} {entry : Entry D} {remaining : List (EncodedFormula × TmpIndexNode)}
      (before : Walks table front solved node) (new : opens (specials [] front) token)
      (atEntry : table[solved.length]? = some entry) (isSolved : entry.isSolved = true)
      (offers : Offers context index token.role word entry remaining)
      (among : ∀ term ∈ (word, next) :: remaining, term ∈ candidates context token.role node) :
      Walks table (front ++ [token]) (solved ++ [(token.role, word)]) next

variable {context index}

theorem mem_of_bound {solved : Solved} {id : Nat} {word : EncodedFormula} (known : solved.bound id = some word) :
    (.named id, word) ∈ solved := List.mem_of_getElem? (getElem?_idxOf_of_lookup known)

/-- The entry of a variable that is solved. -/
theorem Ready.replayed {solved : Solved} {table : List (Entry D)} {front rest : EncodedFormula} {id : Nat}
    {word : EncodedFormula} (ready : Ready context (specials [] (front ++ rest)) solved table)
    (entries : solved.map Prod.fst = specials [] front) (known : solved.bound id = some word) :
    ∃ iterator, table[(specials [] front).idxOf (.named id)]? = some (.qvar true iterator) ∧ Spells word iterator := by
  have atSolved := getElem?_idxOf_of_lookup known
  have member := List.mem_map_of_mem (f := Prod.fst) (mem_of_bound known)
  rw [entries] at atSolved member
  have atRole : (specials [] (front ++ rest))[(specials [] front).idxOf (.named id)]? = some (.named id) := by
    obtain ⟨more, grown⟩ := specials_extends rest (specials [] front)
    rw [specials_append, grown, List.getElem?_append_left (List.idxOf_lt_length_of_mem member)]
    exact List.getElem?_idxOf member
  obtain ⟨entry, atEntry, ok⟩ := ready.entry _ _ atRole
  rw [atSolved] at ok
  cases entry with
  | range => exact ok.elim
  | qvar isSolved iterator =>
    obtain ⟨rfl, spells⟩ := ok
    exact ⟨iterator, atEntry, spells⟩

theorem not_opens_of_constant {seen : List TokenRole} {token : EncodedToken} (role : token.role = .constant) :
    ¬ opens seen token := by simp [opens, role]

theorem not_opens_of_mem {seen : List TokenRole} {token : EncodedToken} {id : Nat} (role : token.role = .named id)
    (member : .named id ∈ seen) : ¬ opens seen token := by simpa [opens, role] using member

theorem role_of_opens {seen : List TokenRole} {token : EncodedToken} (new : opens seen token) :
    token.role ≠ .constant := fun role => not_opens_of_constant role new

/-- The entries of the walk are those of the tokens in front. -/
theorem Walks.entries {table : List (Entry D)} {front : EncodedFormula} {solved : Solved} {node : TmpIndexNode}
    (walks : Walks context index table front solved node) : solved.map Prod.fst = specials [] front := by
  induction walks with
  | start => rfl
  | constant before role child ih => rw [specials_concat, extend, if_neg (not_opens_of_constant role), ih]
  | again before role known reached ih =>
    have member := List.mem_map_of_mem (f := Prod.fst) (mem_of_bound known)
    rw [ih] at member
    rw [specials_concat, extend, if_neg (not_opens_of_mem role member), ih]
  | special before new atEntry isSolved offers among ih =>
    rw [specials_concat, extend, if_pos new, List.map_append, ih]
    rfl

/-- Of the table the walk needs the front. -/
theorem Walks.congr {table table' : List (Entry D)} {front : EncodedFormula} {solved : Solved} {node : TmpIndexNode}
    (walks : Walks context index table front solved node) (same : SameFront solved.length table table') :
    Walks context index table' front solved node := by
  induction walks with
  | start => exact .start
  | constant before role child ih => exact .constant (ih same) role child
  | again before role known reached ih => exact .again (ih same) role known reached
  | @special front solved node next token word entry remaining before new atEntry isSolved offers among ih =>
    rw [List.length_append, List.length_singleton] at same
    refine .special (ih fun number small => same number (by omega)) new ?_ isSolved offers among
    rw [same solved.length (Nat.lt_succ_self _)]
    exact atEntry

/-- **Back to the last entry of the walk.** -/
theorem Walks.pop {table : List (Entry D)} {front : EncodedFormula} {whole solved : Solved} {node : TmpIndexNode}
    {role : TokenRole} {word : EncodedFormula} (walks : Walks context index table front whole node)
    (split : whole = solved ++ [(role, word)]) :
    ∃ before token behind middle entry remaining, front = before ++ token :: behind ∧ token.role = role ∧
      Walks context index table before solved middle ∧ opens (specials [] before) token ∧
      table[solved.length]? = some entry ∧ entry.isSolved = true ∧ Offers context index role word entry remaining ∧
      ∀ term ∈ remaining, term ∈ candidates context role middle := by
  induction walks with
  | start => simp at split
  | @constant front whole node next last before role child ih =>
    obtain ⟨earlier, token, behind, middle, entry, remaining, rfl, rest⟩ := ih split
    exact ⟨earlier, token, behind ++ [last], middle, entry, remaining, by simp, rest⟩
  | @again front whole node next last id word' before role known reached ih =>
    obtain ⟨earlier, token, behind, middle, entry, remaining, rfl, rest⟩ := ih split
    exact ⟨earlier, token, behind ++ [last], middle, entry, remaining, by simp, rest⟩
  | @special front earlier node next token word' entry remaining before new atEntry isSolved offers among ih =>
    obtain ⟨rfl, same⟩ := List.append_inj' split rfl
    obtain ⟨rfl, rfl⟩ := Prod.mk.inj (List.singleton_inj.mp same)
    exact ⟨front, token, [], node, entry, remaining, rfl, rfl, before, new, atEntry, isSolved, offers,
      fun term member => among term (List.mem_cons_of_mem _ member)⟩

theorem candidates_sound {known : EncodedToken → Prop} {opened : Nat} {node : TmpIndexNode} {role : TokenRole}
    (sound : Sound known (opened + 1) node) : ∀ term ∈ candidates context role node, Candidate known opened term := by
  unfold candidates
  split
  · exact candidate_accepted sound
  · exact candidate_term sound

/-- A token that opens an entry: the solutions are those behind its candidates. -/
theorem solutions_special {solved : Solved} {front : EncodedFormula} {token : EncodedToken}
    (entries : solved.map Prod.fst = specials [] front) (new : opens (specials [] front) token) (rest : EncodedFormula)
    (node : TmpIndexNode) : solutions (accepts context) solved (token :: rest) node =
      (candidates context token.role node).flatMap fun term =>
        solutions (accepts context) (solved ++ [(token.role, term.1)]) rest term.2 := by
  rw [solutions]
  cases role : token.role with
  | constant => exact absurd role (role_of_opens new)
  | named id =>
    have fresh : solved.bound id = none := by
      rw [Option.eq_none_iff_forall_ne_some]
      intro word known
      have member := List.mem_map_of_mem (f := Prod.fst) (mem_of_bound known)
      rw [entries] at member
      exact not_opens_of_mem role member new
    simp only [fresh]
    rfl
  | anonymous => rfl
  | restricted id =>
    simp only [candidates, accepted]
    rw [List.flatMap_map]

/-- **Where a walk has come to**, the solutions are solutions of the whole query. -/
theorem Walks.solutions_subset {table : List (Entry D)} {front : EncodedFormula} {solved : Solved} {node : TmpIndexNode}
    (walks : Walks context index table front solved node) : ∀ rest,
      solutions (accepts context) solved rest node ⊆ solutions (accepts context) [] (front ++ rest) index.root := by
  induction walks with
  | start => exact fun rest _ member => member
  | @constant front solved node next token before role child ih =>
    intro rest found member
    rw [List.append_assoc, List.singleton_append]
    refine ih (token :: rest) ?_
    simp only [solutions, role, child]
    exact member
  | @again front solved node next token id word before role known reached ih =>
    intro rest found member
    rw [List.append_assoc, List.singleton_append]
    refine ih (token :: rest) ?_
    simp only [solutions, role, known, reached]
    exact member
  | @special front solved node next token word entry remaining before new atEntry isSolved offers among ih =>
    intro rest found member
    rw [List.append_assoc, List.singleton_append]
    refine ih (token :: rest) ?_
    rw [solutions_special before.entries new]
    exact List.mem_flatMap.mpr ⟨(word, next), among _ List.mem_cons_self, member⟩

/-- The front of a walk has a solution. -/
theorem Walks.solutions_ne_nil {table : List (Entry D)} {front : EncodedFormula} {solved : Solved} {node : TmpIndexNode}
    (walks : Walks context index table front solved node) :
    solutions (accepts context) [] front index.root ≠ [] := by
  have member := walks.solutions_subset [] (show node ∈ solutions (accepts context) solved [] node from List.mem_singleton_self node)
  rw [List.append_nil] at member
  exact List.ne_nil_of_mem member

/-- The node of a walk is as deep as the query in front is, and the words are complete. -/
theorem Walks.sound {known : EncodedToken → Prop} (sound : Sound known 1 index.root) {table : List (Entry D)}
    {front : EncodedFormula} {solved : Solved} {node : TmpIndexNode}
    (walks : Walks context index table front solved node) : ∀ rest, Closes EncodedToken.queryArity 1 (front ++ rest) →
      (∀ entry ∈ solved, Closes EncodedToken.arity 1 entry.2) ∧
        ∃ opened, Closes EncodedToken.queryArity opened rest ∧ Sound known opened node := by
  induction walks with
  | start => exact fun rest closes => ⟨fun entry member => absurd member List.not_mem_nil, 1, closes, sound⟩
  | @constant front solved node next token before role child ih =>
    intro rest closes
    rw [List.append_assoc, List.singleton_append] at closes
    obtain ⟨complete, opened, closes, here⟩ := ih _ closes
    cases opened with
    | zero => exact closes.elim
    | succ opened =>
      rw [closes_cons, EncodedToken.queryArity, patternArity_constant role] at closes
      exact ⟨complete, _, closes, here.child child⟩
  | @again front solved node next token id word before role known reached ih =>
    intro rest closes
    rw [List.append_assoc, List.singleton_append] at closes
    obtain ⟨complete, opened, closes, here⟩ := ih _ closes
    cases opened with
    | zero => exact closes.elim
    | succ opened =>
      rw [closes_cons, EncodedToken.queryArity, patternArity_hole (by rw [role]; simp), Nat.add_zero] at closes
      have term := (mem_terms_iff here.shape).mpr ⟨complete _ (mem_of_bound known), reached⟩
      exact ⟨complete, _, closes, here.term term⟩
  | @special front solved node next token word entry remaining before new atEntry isSolved offers among ih =>
    intro rest closes
    rw [List.append_assoc, List.singleton_append] at closes
    obtain ⟨complete, opened, closes, here⟩ := ih _ closes
    cases opened with
    | zero => exact closes.elim
    | succ opened =>
      rw [closes_cons, EncodedToken.queryArity, patternArity_hole (role_of_opens new), Nat.add_zero] at closes
      have candidate := candidates_sound here _ (among _ List.mem_cons_self)
      refine ⟨fun item member => ?_, _, closes, candidate.2⟩
      rcases List.mem_append.mp member with old | last
      · exact complete item old
      · rw [List.mem_singleton.mp last]
        exact candidate.1

end Walk

/-! ### One round -/

section Round

variable {context : SearchContext D} {index : TmpIndex} {pattern : EncodedFormula} {fuel : Nat}

/-- A state of a run: the table is ready and a walk leads to the current node. -/
def Tracks (context : SearchContext D) (index : TmpIndex) (pattern : EncodedFormula)
    (state : SearchState D TmpIndexNode TmpIterator) : Prop :=
  ∃ front rest solved, pattern = front ++ rest ∧ state.currentToken = front.length ∧ state.lastSolved = solved.length ∧
    Walks context index state.bkTable front solved state.currentNode ∧
    Ready context (specials [] pattern) solved state.bkTable

theorem map_set_same {α β : Type} (f : α → β) {entries : List α} {number : Nat} {old new : α}
    (atNumber : entries[number]? = some old) (same : f new = f old) : (entries.set number new).map f = entries.map f := by
  refine List.ext_getElem? fun other => ?_
  rw [List.getElem?_map, List.getElem?_map]
  by_cases here : number = other
  · subst here
    rw [List.getElem?_set_self (List.getElem?_eq_some_iff.mp atNumber).1, atNumber, Option.map_some, Option.map_some, same]
  · rw [List.getElem?_set_ne here]

/-- **Backtracking** asks solved entries only, sets no iterator, and comes to a state of the run. -/
theorem backtrackLoop_tracks (compiled : Compiled context pattern) (solved : Solved) :
    ∀ {table table' : List (Entry D)} {front rest : EncodedFormula} {node : TmpIndexNode} {last : Nat}
      {found : Option TmpIndexNode}, pattern = front ++ rest → Walks context index table front solved node →
      Ready context (specials [] pattern) solved table →
      backtrackLoop strictAccessor index context fuel solved.length table = some (table', last, found) →
      (∀ ctxt ∈ askedLoop strictAccessor index context fuel solved.length table, ctxt.isSolved = true) ∧
        table'.map BacktrackCtxt.assigned = table.map BacktrackCtxt.assigned ∧
        ∀ number next, last = number + 1 → found = some next → ∃ point, context.backtrackPoints[number]? = some point ∧
          ∀ collected, Tracks context index pattern ⟨table', point, next, number + 1, collected⟩ := by
  have mono : Fuel.FuelMono fun fuel (entry : Entry D) => entry.nextSol strictAccessor index context.decoder fuel :=
    fun fuel entry => nextSol_mono strictAccessor index context.decoder fuel entry
  induction solved using List.reverseRecOn with
  | nil =>
    intro table table' front rest node last found _ _ _ backtracked
    cases backtracked
    exact ⟨fun ctxt member => absurd member List.not_mem_nil, rfl, fun number next empty => absurd empty (Nat.succ_ne_zero _).symm⟩
  | append_singleton solved item ih =>
    obtain ⟨role, word⟩ := item
    intro table table' front rest node last found whole walks ready backtracked
    obtain ⟨before, token, behind, middle, entry, remaining, rfl, rfl, walksBefore, new, atEntry, isSolved, offers, among⟩ :=
      walks.pop rfl
    have count : (specials [] before).length = solved.length := by rw [← walksBefore.entries, List.length_map]
    have wholeBefore : pattern = before ++ token :: (behind ++ rest) := by rw [whole]; simp
    obtain ⟨atRole, atPoint⟩ := (wholeBefore ▸ compiled).entry_at new
    rw [count] at atRole atPoint
    rw [← wholeBefore] at atRole
    rw [List.length_append, List.length_singleton, backtrackLoop] at backtracked
    rw [List.length_append, List.length_singleton]
    obtain ⟨ctxt, atCtxt, backtracked⟩ := Option.bind_eq_some_iff.mp backtracked
    obtain rfl : entry = ctxt := Option.some.inj (atEntry.symm.trans atCtxt)
    obtain ⟨⟨ctxt', node'⟩, asks, backtracked⟩ := Option.bind_eq_some_iff.mp backtracked
    have assigned := map_set_same BacktrackCtxt.assigned atEntry (BacktrackCtxt.nextSol_set asks).1
    have front' : SameFront solved.length table (table.set solved.length ctxt') :=
      SameFront.set (fun _ _ => rfl) le_rfl ctxt'
    cases offers with
    | @last _ _ entry' _ next fresh =>
      obtain ⟨rfl, rfl⟩ := Prod.mk.inj (mono.agree asks next)
      have readyBefore : Ready context (specials [] pattern) solved (table.set solved.length ctxt') := by
        refine ready.set atRole (fun other different => (getElem?_push_ne _ _ different).symm) ?_
        rw [List.getElem?_eq_none le_rfl]
        exact fresh
      obtain ⟨asked, same, onward⟩ := ih wholeBefore (walksBefore.congr front') readyBefore backtracked
      refine ⟨?_, same.trans assigned, onward⟩
      rw [askedLoop]
      simp only [atEntry, asks]
      intro other member
      rcases List.mem_cons.mp member with rfl | member
      · exact isSolved
      · exact asked other member
    | @more _ word' _ entry' next more _ ask offers' =>
      obtain ⟨rfl, rfl⟩ := Prod.mk.inj (mono.agree asks ask)
      cases backtracked
      refine ⟨?_, assigned, ?_⟩
      · rw [askedLoop]
        simp only [atEntry, asks]
        intro other member
        rw [List.mem_singleton.mp member]
        exact isSolved
      rintro number next' same found
      obtain rfl : solved.length = number := Nat.succ.inj same
      obtain rfl : next = next' := Option.some.inj found
      refine ⟨before.length + 1, atPoint, fun collected => ⟨before ++ [token], behind ++ rest,
        solved ++ [(token.role, word')], by rw [wholeBefore]; simp, by simp, by simp, ?_, ?_⟩⟩
      · have small : solved.length < table.length := (List.getElem?_eq_some_iff.mp atEntry).1
        exact .special (walksBefore.congr front') new (List.getElem?_set_self small)
          ((BacktrackCtxt.nextSol_set asks).2 isSolved rfl) offers' among
      · refine ready.set atRole (fun other different => ?_) ?_
        · rw [getElem?_push_ne _ _ different, getElem?_push_ne _ _ different]
        · rw [List.getElem?_append_right le_rfl, Nat.sub_self]
          exact offers'.solvedAs

/-- What the evaluation of the current token sets: the iterator of an entry that is met for the first time. -/
def Sets (context : SearchContext D) (pattern : EncodedFormula) (state : SearchState D TmpIndexNode TmpIterator)
    (table : List (Entry D)) : Prop :=
  table.map BacktrackCtxt.assigned = state.bkTable.map BacktrackCtxt.assigned ∧
      (∀ front token back, pattern = front ++ token :: back → state.currentToken = front.length →
        ¬ opens (specials [] front) token) ∨
    ∃ front token back, pattern = front ++ token :: back ∧ state.currentToken = front.length ∧
      opens (specials [] front) token ∧ solutions (accepts context) [] front index.root ≠ [] ∧
      table.map BacktrackCtxt.assigned = (state.bkTable.map BacktrackCtxt.assigned).set (specials [] front).length true

variable {query : DbQuery} {offset size maxTotal : Nat} {known : EncodedToken → Prop}

/-- **Solving a fresh entry**: it offers the candidates of its token, or there are none. -/
theorem solve_candidates {role : TokenRole} {opened : Nat} {node : TmpIndexNode} (hole : role ≠ .constant)
    (decides : ∀ id, role = .restricted id → ∀ other, known other → Decides context id other)
    (sound : Sound known (opened + 1) node) {entry : Entry D} (fresh : Fresh context role entry) :
    (candidates context role node = [] ∧ ∃ entry', Fresh context role entry' ∧ ∃ enough, ∀ fuel, enough ≤ fuel →
        entry.solve strictAccessor index context.decoder fuel node = some (entry', none)) ∨
      ∃ term remaining entry', candidates context role node = term :: remaining ∧
        (∃ enough, ∀ fuel, enough ≤ fuel →
          entry.solve strictAccessor index context.decoder fuel node = some (entry', some term.2)) ∧
        Offers context index role term.1 entry' remaining := by
  cases role with
  | constant => exact absurd rfl hole
  | named id => exact Or.inr (solve_qvar context index (Or.inr ⟨id, rfl⟩) fresh sound.shape)
  | anonymous => exact Or.inr (solve_qvar context index (Or.inl rfl) fresh sound.shape)
  | restricted id =>
    have scannable : Scannable context id node node.children :=
      ⟨fun entry member => decides id rfl _ (sound.entry member).1, fun entry member => sound.shape.child_of_mem member⟩
    exact solve_range index fresh scannable sound.shape.children_ne_nil

/-- The triple of a token that opens an entry. -/
theorem triple_of_opens {seen : List TokenRole} {token : EncodedToken} (new : opens seen token) :
    ∃ type, triple seen token = ⟨type, token.id, seen.length⟩ ∧ type ≠ .const ∧
      (type = .qvar → IsVariable token.role) := by
  unfold triple
  cases role : token.role with
  | constant => exact absurd role (role_of_opens new)
  | named id =>
    have absent : .named id ∉ seen := by simpa [opens, role] using new
    refine ⟨.qvar, ?_, by simp, fun _ => Or.inr ⟨id, rfl⟩⟩
    simp only [List.idxOf_of_notMem absent]
  | anonymous => exact ⟨.qvar, rfl, by simp, fun _ => Or.inl rfl⟩
  | restricted id => exact ⟨.range, rfl, by simp, by simp⟩

/-- The evaluation of a token whose entry is fresh is a call of `solve`. -/
theorem evaluate_solve {state : SearchState D TmpIndexNode TmpIterator} {type : TokType} {id number : Nat}
    {entry : Entry D} {role : TokenRole} (current : context.expr[state.currentToken]? = some ⟨type, id, number⟩)
    (hole : type ≠ .const) (variableFresh : type = .qvar → IsVariable role) (atEntry : state.bkTable[number]? = some entry)
    (fresh : Fresh context role entry) :
    SearchContext.evaluate strictAccessor index context fuel state =
      (entry.solve strictAccessor index context.decoder fuel state.currentNode).map fun result =>
        (state.bkTable.set number result.1, result.2) := by
  have solving : solveAt strictAccessor index context fuel state number =
      (entry.solve strictAccessor index context.decoder fuel state.currentNode).map fun result =>
        (state.bkTable.set number result.1, result.2) := by
    rw [solveAt, atEntry, Option.map_eq_bind]
    rfl
  rw [← solving]
  cases type with
  | const => exact absurd rfl hole
  | range => simp only [SearchContext.evaluate, current]
  | qvar =>
    have unsolved : ∃ iterator, entry = .qvar false iterator := by
      rcases variableFresh rfl with rfl | ⟨id, rfl⟩ <;> cases entry with
      | qvar isSolved iterator => exact ⟨iterator, by rw [fresh.1]⟩
      | range => exact fresh.elim
    obtain ⟨iterator, rfl⟩ := unsolved
    simp only [SearchContext.evaluate, current, atEntry, Option.bind_eq_bind, Option.bind_some]

theorem evaluate_const {state : SearchState D TmpIndexNode TmpIterator} {id arity : Nat}
    (inner : state.currentNode.children ≠ []) (current : context.expr[state.currentToken]? = some ⟨.const, id, arity⟩) :
    SearchContext.evaluate strictAccessor index context fuel state =
      some (state.bkTable, state.currentNode.child (encodedToken id arity)) := by
  simp [SearchContext.evaluate, current, inner]

theorem evaluate_replay {state : SearchState D TmpIndexNode TmpIterator} {id number : Nat}
    {iterator : IndexIterator TmpIndexNode TmpIterator} {word : EncodedFormula} {opened : Nat}
    (shape : WellFormed (opened + 1) state.currentNode)
    (current : context.expr[state.currentToken]? = some ⟨.qvar, id, number⟩)
    (atEntry : state.bkTable[number]? = some (.qvar true iterator)) (spells : Spells word iterator)
    (complete : Closes EncodedToken.arity 1 word) :
    SearchContext.evaluate strictAccessor index context fuel state =
      some (state.bkTable, walk word state.currentNode) := by
  have path := replay_eq index spells.2 (spells.1.symm ▸ complete) shape
  rw [spells.1] at path
  simp [SearchContext.evaluate, current, atEntry, IndexIterator.getPath, path]

/-- A token that opens no entry sets nothing. -/
theorem Sets.of_plain {front rest : EncodedFormula} {token : EncodedToken} {state : SearchState D TmpIndexNode TmpIterator}
    (position : state.currentToken = front.length) (old : ¬ opens (specials [] front) token) :
    @Sets D index context (front ++ token :: rest) state state.bkTable := by
  refine Or.inl ⟨rfl, fun front' token' back split here => ?_⟩
  obtain ⟨rfl, same⟩ := List.append_inj split (position.symm.trans here)
  obtain ⟨rfl, -⟩ := List.cons.inj same
  exact old

/-- **The evaluation of the current token**: on to the next token, or back to the entries in front. -/
theorem Tracks.evaluate (compiled : Compiled context pattern) (decides : DecidesKnown context known pattern)
    (closes : Closes EncodedToken.queryArity 1 pattern) (sound : Sound known 1 index.root)
    {state : SearchState D TmpIndexNode TmpIterator} (tracks : Tracks context index pattern state)
    (unfinished : state.collected.found < maxTotal) {next : SearchState D TmpIndexNode TmpIterator ⊕ Collected TmpIndexNode}
    (stepped : round context index query offset size maxTotal fuel state = some next) :
    ∃ table node, SearchContext.evaluate strictAccessor index context fuel state = some (table, node) ∧
      @Sets D index context pattern state table ∧
      ((∃ onward, node ≠ none ∧ next = .inl onward ∧ onward.bkTable = table ∧ Tracks context index pattern onward) ∨
        ∃ collected front rest solved middle, node = none ∧
          resume strictAccessor index context fuel table state.lastSolved collected = some next ∧
          pattern = front ++ rest ∧ state.lastSolved = solved.length ∧ Walks context index table front solved middle ∧
          Ready context (specials [] pattern) solved table) := by
  obtain ⟨table, currentToken, node, lastSolved, collected⟩ := state
  obtain ⟨front, rest, solved, whole, rfl, rfl, walks, ready⟩ := tracks
  cases rest with
  | nil =>
    rw [List.append_nil] at whole
    subst whole
    rw [round_end unfinished compiled.expr_end] at stepped
    obtain ⟨handled, -, resumed⟩ := Option.bind_eq_some_iff.mp stepped
    refine ⟨table, none, by simp only [SearchContext.evaluate, compiled.expr_end], Or.inl ⟨rfl, ?_⟩,
      Or.inr ⟨handled, pattern, [], solved, node, rfl, resumed, (List.append_nil _).symm, rfl, walks, ready⟩⟩
    intro front' token back split here
    have lengths := congrArg List.length split
    simp at lengths here
    omega
  | cons token rest =>
    subst whole
    obtain ⟨complete, opened, closesRest, here⟩ := walks.sound sound (token :: rest) closes
    cases opened with
    | zero => exact closesRest.elim
    | succ opened =>
      have position : (front ++ [token]).length = front.length + 1 := by simp
      have step : front ++ token :: rest = (front ++ [token]) ++ rest := by simp
      have current := compiled.expr_at
      -- a token that opens no entry leads to a node, or nowhere
      have plain : ∀ {target : Option TmpIndexNode}, ¬ opens (specials [] front) token →
          SearchContext.evaluate strictAccessor index context fuel ⟨table, front.length, node, solved.length, collected⟩ =
            some (table, target) →
          advance strictAccessor index context fuel ⟨table, front.length, node, solved.length, collected⟩ table
            solved.length target = some next →
          (∀ reached, target = some reached → Walks context index table (front ++ [token]) solved reached) →
          ∃ table' node', SearchContext.evaluate strictAccessor index context fuel
              ⟨table, front.length, node, solved.length, collected⟩ = some (table', node') ∧
            @Sets D index context (front ++ token :: rest) ⟨table, front.length, node, solved.length, collected⟩ table' ∧
            ((∃ onward, node' ≠ none ∧ next = .inl onward ∧ onward.bkTable = table' ∧
                Tracks context index (front ++ token :: rest) onward) ∨
              ∃ collected' front' rest' solved' middle, node' = none ∧
                resume strictAccessor index context fuel table' solved.length collected' = some next ∧
                front ++ token :: rest = front' ++ rest' ∧ solved.length = solved'.length ∧
                Walks context index table' front' solved' middle ∧
                Ready context (specials [] (front ++ token :: rest)) solved' table') := by
        intro target old evaluated advanced onward
        refine ⟨table, target, evaluated, Sets.of_plain rfl old, ?_⟩
        cases target with
        | none => exact Or.inr ⟨collected, front, _, solved, node, rfl, advanced, rfl, rfl, walks, ready⟩
        | some reached =>
          cases advanced
          exact Or.inl ⟨_, by simp, rfl, rfl, front ++ [token], rest, solved, step, position.symm, rfl,
            onward reached rfl, ready⟩
      by_cases new : opens (specials [] front) token
      · have count : (specials [] front).length = solved.length := by rw [← walks.entries, List.length_map]
        obtain ⟨type, same, hole, variableFresh⟩ := triple_of_opens new
        rw [same, count] at current
        have atRole := (compiled.entry_at new).1
        rw [count] at atRole
        obtain ⟨entry, atEntry, fresh⟩ := ready.entry solved.length token.role atRole
        rw [List.getElem?_eq_none (le_refl solved.length)] at fresh
        rw [round_solve unfinished current hole variableFresh atEntry fresh fuel] at stepped
        obtain ⟨⟨ctxt, target⟩, solves, advanced⟩ := Option.bind_eq_some_iff.mp stepped
        have front' : SameFront solved.length table (table.set solved.length ctxt) :=
          SameFront.set (fun _ _ => rfl) le_rfl ctxt
        have small : solved.length < table.length := (List.getElem?_eq_some_iff.mp atEntry).1
        refine ⟨table.set solved.length ctxt, target, ?_, Or.inr ⟨front, token, rest, rfl, rfl, new,
          walks.solutions_ne_nil, ?_⟩, ?_⟩
        · rw [evaluate_solve current hole variableFresh atEntry fresh, solves, Option.map_some]
        · rw [count, List.map_set, (BacktrackCtxt.solve_set solves).1]
        have mono : Fuel.FuelMono fun fuel (node : TmpIndexNode) => entry.solve strictAccessor index context.decoder fuel node :=
          fun fuel node => solve_mono strictAccessor index context.decoder fuel entry node
        have among : token ∈ front ++ token :: rest := by simp
        rcases solve_candidates (role_of_opens new) (fun id role => decides token among id role) here fresh with
          ⟨-, entry', fresh', unsolved⟩ | ⟨term, remaining, entry', offered, solved', offers⟩
        · obtain ⟨rfl, rfl⟩ := Prod.mk.inj (mono.agree solves unsolved)
          refine Or.inr ⟨collected, front, _, solved, node, rfl, advanced, rfl, rfl, walks.congr front', ?_⟩
          refine ready.set atRole (fun _ _ => rfl) ?_
          rw [List.getElem?_eq_none le_rfl]
          exact fresh'
        · obtain ⟨rfl, rfl⟩ := Prod.mk.inj (mono.agree solves solved')
          cases advanced
          refine Or.inl ⟨_, by simp, rfl, rfl, front ++ [token], rest, solved ++ [(token.role, term.1)], step,
            position.symm, by simp, ?_, ?_⟩
          · refine .special (walks.congr front') new (List.getElem?_set_self small)
              ((BacktrackCtxt.solve_set solves).2 rfl) offers fun other member => ?_
            rw [offered]
            exact member
          · refine ready.set atRole (fun other different => getElem?_push_ne _ _ different) ?_
            rw [List.getElem?_append_right le_rfl, Nat.sub_self]
            exact offers.solvedAs
      · cases role : token.role with
        | constant =>
          simp only [triple, role] at current
          have inner := here.shape.children_ne_nil
          have evaluated := @evaluate_const D context index fuel ⟨table, front.length, node, solved.length, collected⟩ _ _
            inner current
          rw [round_const unfinished inner current] at stepped
          exact plain new evaluated stepped fun reached child =>
            .constant walks role (by rwa [EncodedToken.encodedToken_self] at child)
        | named id =>
          have member : .named id ∈ specials [] front := by simpa [opens, role] using new
          simp only [triple, role] at current
          cases known' : solved.bound id with
          | none => exact absurd (walks.entries ▸ member) (notMem_of_lookup_none known')
          | some word =>
            obtain ⟨iterator, atEntry, spells⟩ := ready.replayed walks.entries known'
            have closesWord := complete _ (mem_of_bound known')
            have evaluated := @evaluate_replay D context index fuel
              ⟨table, front.length, node, solved.length, collected⟩ _ _ _ _ _ here.shape current atEntry spells closesWord
            rw [round_replay unfinished here.shape current atEntry spells closesWord] at stepped
            exact plain new evaluated stepped fun reached along => .again walks role known' along
        | anonymous => exact absurd (by simp [opens, role]) new
        | restricted id => exact absurd (by simp [opens, role]) new

/-- **A round of a run**: it asks solved entries only, it leaves the table with the iterators that the evaluation set, and
it comes to a state of the run or to its end. -/
theorem Tracks.round (compiled : Compiled context pattern) (decides : DecidesKnown context known pattern)
    (closes : Closes EncodedToken.queryArity 1 pattern) (sound : Sound known 1 index.root)
    {state : SearchState D TmpIndexNode TmpIterator} (tracks : Tracks context index pattern state)
    {next : SearchState D TmpIndexNode TmpIterator ⊕ Collected TmpIndexNode}
    (stepped : SearchContext.round context index query offset size maxTotal fuel state = some next)
    {left asked : List (Entry D)} (leaves : leftBehind strictAccessor index context maxTotal fuel state = some (left, asked)) :
    (∀ ctxt ∈ asked, ctxt.isSolved = true) ∧
      (state.collected.found < maxTotal → ∃ table : List (Entry D), @Sets D index context pattern state table ∧
        left.map BacktrackCtxt.assigned = table.map BacktrackCtxt.assigned) ∧
      (¬ state.collected.found < maxTotal → left = state.bkTable) ∧
      ∀ onward, next = .inl onward → Tracks context index pattern onward := by
  by_cases unfinished : state.collected.found < maxTotal
  · obtain ⟨table, node, evaluated, sets, onward | ⟨collected, front, rest, solved, middle, rfl, resumed, whole, count, walks, ready⟩⟩ :=
      tracks.evaluate compiled decides closes sound unfinished stepped
    · obtain ⟨onward, found, rfl, rfl, tracks'⟩ := onward
      obtain ⟨reached, rfl⟩ := Option.ne_none_iff_exists'.mp found
      simp only [leftBehind, if_pos unfinished, evaluated, Option.bind_eq_bind, Option.bind_some] at leaves
      cases leaves
      refine ⟨fun ctxt member => absurd member List.not_mem_nil, fun _ => ⟨_, sets, rfl⟩, absurd unfinished, ?_⟩
      intro other same
      cases same
      exact tracks'
    · simp only [leftBehind, if_pos unfinished, evaluated, Option.bind_eq_bind, Option.bind_some] at leaves
      obtain ⟨⟨table', last, found⟩, backtracked, same⟩ := Option.bind_eq_some_iff.mp leaves
      cases same
      rw [count] at backtracked resumed
      obtain ⟨asks, assigned, onward⟩ := backtrackLoop_tracks compiled solved whole walks ready backtracked
      refine ⟨count ▸ asks, fun _ => ⟨table, sets, assigned⟩, absurd unfinished, ?_⟩
      rintro state' rfl
      rw [resume, backtracked] at resumed
      cases last with
      | zero => cases resumed
      | succ last =>
        cases found with
        | none => cases resumed
        | some found =>
          obtain ⟨point, atPoint, tracks'⟩ := onward last found rfl rfl
          have resumed' : (context.backtrackPoints[last]?.bind fun point =>
            some (Sum.inl (⟨table', point, found, last + 1, collected⟩ : SearchState D TmpIndexNode TmpIterator) :
              SearchState D TmpIndexNode TmpIterator ⊕ Collected TmpIndexNode)) = some (.inl state') := resumed
          rw [atPoint, Option.bind_some] at resumed'
          cases resumed'
          exact tracks' collected
  · rw [leftBehind, if_neg unfinished] at leaves
    cases leaves
    refine ⟨fun ctxt member => absurd member List.not_mem_nil, fun found => absurd found unfinished, fun _ => rfl, ?_⟩
    rintro onward rfl
    unfold SearchContext.round searchStep at stepped
    rw [if_neg unfinished] at stepped
    cases stepped

end Round

/-! ### Arriving at a token -/

section Visits

variable {context : SearchContext D} {index : TmpIndex} {query : DbQuery} {offset size maxTotal : Nat}

/-- The run arrives at a place in the query, and matches are still asked for. -/
def Visits (context : SearchContext D) (index : TmpIndex) (query : DbQuery) (offset size maxTotal place : Nat)
    (state : SearchState D TmpIndexNode TmpIterator) : Prop :=
  Fuel.Reaches (round context index query offset size maxTotal) state fun last =>
    last.currentToken = place ∧ last.collected.found < maxTotal

/-- Where the front of a query has no solution, the whole query has none. -/
theorem solutions_append_nil {accepts : Nat → EncodedToken → Bool} (front rest : EncodedFormula) :
    ∀ {solved : Solved} {node : TmpIndexNode}, solutions accepts solved front node = [] →
      solutions accepts solved (front ++ rest) node = [] := by
  induction front with
  | nil => intro solved node none'; cases none'
  | cons token front ih =>
    intro solved node none'
    rw [List.cons_append]
    simp only [solutions] at none' ⊢
    cases role : token.role with
    | constant =>
      simp only [role] at none' ⊢
      cases child : node.child token with
      | none => rfl
      | some next => rw [child] at none'; exact ih none'
    | named id =>
      simp only [role] at none' ⊢
      cases known : solved.bound id with
      | none =>
        simp only [known] at none' ⊢
        exact List.flatMap_eq_nil_iff.mpr fun term member => ih (List.flatMap_eq_nil_iff.mp none' term member)
      | some word =>
        simp only [known] at none' ⊢
        cases reached : walk word node with
        | none => rfl
        | some next => rw [reached] at none'; exact ih none'
    | anonymous =>
      simp only [role] at none' ⊢
      exact List.flatMap_eq_nil_iff.mpr fun term member => ih (List.flatMap_eq_nil_iff.mp none' term member)
    | restricted id =>
      simp only [role] at none' ⊢
      exact List.flatMap_eq_nil_iff.mpr fun term member => ih (List.flatMap_eq_nil_iff.mp none' term member)

/-- **From one solution of an entry to the next**, until one of them has a solution of the front behind it. -/
theorem visits_offers {roles : List TokenRole} {solved : Solved} {role : TokenRole} {point place : Nat}
    {good live : EncodedFormula × TmpIndexNode → Prop} {collected : Collected TmpIndexNode}
    (unfinished : collected.found < maxTotal) (atRole : roles[solved.length]? = some role)
    (atPoint : context.backtrackPoints[solved.length]? = some point)
    (later : ∀ {word : EncodedFormula} {node : TmpIndexNode} {table : List (Entry D)}, good (word, node) →
      live (word, node) → Ready context roles (solved ++ [(role, word)]) table →
      Visits context index query offset size maxTotal place ⟨table, point, node, solved.length + 1, collected⟩)
    (dead : ∀ {word : EncodedFormula} {node : TmpIndexNode} {table : List (Entry D)}, good (word, node) →
      ¬ live (word, node) → Ready context roles (solved ++ [(role, word)]) table →
      Explored context index query offset size maxTotal roles (solved ++ [(role, word)]) table
        ⟨table, point, node, solved.length + 1, collected⟩ [])
    {word : EncodedFormula} {entry : Entry D} {remaining : List (EncodedFormula × TmpIndexNode)}
    (offers : Offers context index role word entry remaining) :
    ∀ {node : TmpIndexNode} {table : List (Entry D)}, (∀ term ∈ (word, node) :: remaining, good term) →
      Ready context roles (solved ++ [(role, word)]) table → table[solved.length]? = some entry →
      (∃ term ∈ (word, node) :: remaining, live term) →
      Visits context index query offset size maxTotal place ⟨table, point, node, solved.length + 1, collected⟩ := by
  induction offers with
  | @last word entry entry' _ next fresh =>
    intro node table sound ready atEntry alive
    obtain ⟨term, member, alive⟩ := alive
    rw [List.mem_singleton.mp member] at alive
    exact later (sound _ List.mem_cons_self) alive ready
  | @more word word' entry entry' node' rest _ next offers' ih =>
    intro node table sound ready atEntry alive
    by_cases here : live (word, node)
    · exact later (sound _ List.mem_cons_self) here ready
    rcases dead (sound _ List.mem_cons_self) here ready collected rfl with ⟨table', same, ready', leads⟩ | ⟨done, -⟩
    · rw [List.length_append, List.length_singleton] at same leads
      have atEntry' : table'[solved.length]? = some entry := by
        rw [same solved.length (Nat.lt_succ_self _)]
        exact atEntry
      have small : solved.length < table'.length := (List.getElem?_eq_some_iff.mp atEntry').1
      have moved : Ready context roles (solved ++ [(role, word')]) (table'.set solved.length entry') := by
        refine ready'.set atRole (fun other different => ?_) ?_
        · rw [getElem?_push_ne _ _ different, getElem?_push_ne _ _ different]
        · rw [List.getElem?_append_right le_rfl, Nat.sub_self]
          exact offers'.solvedAs
      refine Fuel.Reaches.of_leads leads (resume_more atEntry' atPoint next collected) ?_
      refine ih (fun term member => sound term (List.mem_cons_of_mem _ member)) moved (List.getElem?_set_self small) ?_
      obtain ⟨term, member, alive⟩ := alive
      rcases List.mem_cons.mp member with rfl | member
      · exact absurd alive here
      · exact ⟨term, member, alive⟩
    · exact absurd unfinished (Nat.not_lt.mpr done)

/-- **Where the front of a query has a solution, the run arrives behind it.** By induction over what is left of the front. -/
theorem visits_front {known : EncodedToken → Prop} {pattern : EncodedFormula} (compiled : Compiled context pattern)
    (decides : DecidesKnown context known pattern) (mid : EncodedFormula) : ∀ (done : EncodedFormula)
    {back : EncodedFormula} {solved : Solved} {opened : Nat} {node : TmpIndexNode} {table : List (Entry D)}
    {collected : Collected TmpIndexNode}, pattern = done ++ (mid ++ back) → solved.map Prod.fst = specials [] done →
    (∀ entry ∈ solved, Closes EncodedToken.arity 1 entry.2) → Closes EncodedToken.queryArity opened (mid ++ back) →
    Sound known opened node → Ready context (specials [] pattern) solved table → collected.found < maxTotal →
    solutions (accepts context) solved mid node ≠ [] →
    Visits context index query offset size maxTotal (done ++ mid).length
      ⟨table, done.length, node, solved.length, collected⟩ := by
  induction mid with
  | nil =>
    intro done back solved opened node table collected _ _ _ _ _ _ unfinished _
    rw [List.append_nil]
    exact .here ⟨rfl, unfinished⟩
  | cons token mid ih =>
    intro done back solved opened node table collected whole entries complete closes sound ready unfinished alive
    subst whole
    cases opened with
    | zero => exact closes.elim
    | succ opened =>
      rw [List.cons_append, closes_cons] at closes
      have step : done ++ (token :: mid ++ back) = (done ++ [token]) ++ (mid ++ back) := by simp
      have place : (done ++ token :: mid).length = ((done ++ [token]) ++ mid).length := by simp
      have position : (done ++ [token]).length = done.length + 1 := by simp
      have current := (show Compiled context (done ++ token :: (mid ++ back)) from compiled).expr_at
      rw [place]
      by_cases new : opens (specials [] done) token
      · have hole := role_of_opens new
        rw [EncodedToken.queryArity, patternArity_hole hole, Nat.add_zero] at closes
        have count : (specials [] done).length = solved.length := by rw [← entries, List.length_map]
        obtain ⟨type, same, special, variableFresh⟩ := triple_of_opens new
        obtain ⟨atRole, atPoint⟩ := (show Compiled context (done ++ token :: (mid ++ back)) from compiled).entry_at new
        rw [same, count] at current
        rw [count] at atRole atPoint
        obtain ⟨entry, atEntry, fresh⟩ := ready.entry solved.length token.role atRole
        rw [List.getElem?_eq_none (le_refl solved.length)] at fresh
        have small : solved.length < table.length := (List.getElem?_eq_some_iff.mp atEntry).1
        rw [solutions_special entries new] at alive
        have behind : ∀ word, (solved ++ [(token.role, word)]).map Prod.fst = specials [] (done ++ [token]) := by
          intro word
          rw [specials_concat, extend, if_pos new, List.map_append, entries]
          rfl
        have completed : ∀ {word}, Closes EncodedToken.arity 1 word →
            ∀ entry ∈ solved ++ [(token.role, word)], Closes EncodedToken.arity 1 entry.2 := by
          intro word closesWord entry member
          rcases List.mem_append.mp member with old | last
          · exact complete entry old
          · rw [List.mem_singleton.mp last]
            exact closesWord
        have counted : ∀ {word : EncodedFormula}, (solved ++ [(token.role, word)]).length = solved.length + 1 :=
          fun {word} => by rw [List.length_append, List.length_singleton]
        have among : token ∈ done ++ (token :: mid ++ back) := by simp
        rcases @solve_candidates D context index known token.role opened node hole
          (fun id role => decides token among id role) sound entry fresh with
          ⟨offered, -⟩ | ⟨term, remaining, entry', offered, ⟨enough, solves⟩, offers⟩
        · rw [offered] at alive
          exact absurd rfl alive
        have pushed : Ready context (specials [] (done ++ (token :: mid ++ back))) (solved ++ [(token.role, term.1)])
            (table.set solved.length entry') := by
          refine ready.set atRole (fun other different => getElem?_push_ne _ _ different) ?_
          rw [List.getElem?_append_right le_rfl, Nat.sub_self]
          exact offers.solvedAs
        have moved : ∃ enough, ∀ fuel, enough ≤ fuel →
            round context index query offset size maxTotal fuel ⟨table, done.length, node, solved.length, collected⟩ =
              some (.inl ⟨table.set solved.length entry', done.length + 1, term.2, solved.length + 1, collected⟩) := by
          refine ⟨enough, fun fuel more => ?_⟩
          rw [round_solve unfinished current special variableFresh atEntry fresh fuel, solves fuel more]
          rfl
        refine Fuel.Reaches.of_step moved (@visits_offers D context index query offset size maxTotal _ solved token.role
          (done.length + 1) _ (Candidate known opened)
          (fun term => solutions (accepts context) (solved ++ [(token.role, term.1)]) mid term.2 ≠ []) collected unfinished
          atRole atPoint ?_ ?_ _ _ _ offers _ _ ?_ pushed (List.getElem?_set_self small) ?_)
        · intro word node table candidate lives ready'
          have := ih (done ++ [token]) step (behind word) (completed candidate.1) closes candidate.2 ready' unfinished lives
          rwa [position, counted] at this
        · intro word node table candidate dies ready'
          have := @explore D context index query offset size maxTotal known _ compiled decides (mid ++ back)
            (done ++ [token]) _ _ _ _ collected step (behind word) (completed candidate.1) closes candidate.2 ready'
          rwa [position, counted, solutions_append_nil mid back (not_not.mp dies)] at this
        · rw [← offered]
          exact candidates_sound sound
        · by_contra none'
          refine alive (List.flatMap_eq_nil_iff.mpr fun other member => ?_)
          rw [offered] at member
          by_contra lives
          exact none' ⟨other, member, lives⟩
      · have entries' : solved.map Prod.fst = specials [] (done ++ [token]) := by
          rw [specials_concat, extend, if_neg new, entries]
        -- a token that opens no entry leads to the node behind it
        have plain : ∀ {opened' : Nat} {next : TmpIndexNode}, Closes EncodedToken.queryArity opened' (mid ++ back) →
            Sound known opened' next → solutions (accepts context) solved mid next ≠ [] →
            (∀ fuel, round context index query offset size maxTotal fuel
                ⟨table, done.length, node, solved.length, collected⟩ =
              advance strictAccessor index context fuel ⟨table, done.length, node, solved.length, collected⟩ table
                solved.length (some next)) →
            Visits context index query offset size maxTotal (done ++ [token] ++ mid).length
              ⟨table, done.length, node, solved.length, collected⟩ := by
          intro opened' next closes' sound' lives moves
          refine Fuel.Reaches.of_step ⟨0, fun fuel _ => moves fuel⟩ ?_
          have := ih (done ++ [token]) step entries' complete closes' sound' ready unfinished lives
          rwa [position] at this
        cases role : token.role with
        | constant =>
          rw [EncodedToken.queryArity, patternArity_constant role] at closes
          simp only [triple, role] at current
          simp only [solutions, role] at alive
          cases child : node.child token with
          | none => rw [child] at alive; exact absurd rfl alive
          | some next =>
            rw [child] at alive
            refine plain closes (sound.child child) alive fun fuel => ?_
            rw [round_const unfinished sound.shape.children_ne_nil current fuel, EncodedToken.encodedToken_self, child]
        | named id =>
          have member : .named id ∈ specials [] done := by simpa [opens, role] using new
          rw [EncodedToken.queryArity, patternArity_hole (by rw [role]; simp), Nat.add_zero] at closes
          simp only [triple, role] at current
          simp only [solutions, role] at alive
          cases known' : solved.bound id with
          | none => exact absurd (entries ▸ member) (notMem_of_lookup_none known')
          | some word =>
            simp only [known'] at alive
            obtain ⟨iterator, atEntry, spells⟩ := ready.replayed entries known'
            have closesWord := complete _ (mem_of_bound known')
            cases reached : walk word node with
            | none => rw [reached] at alive; exact absurd rfl alive
            | some next =>
              rw [reached] at alive
              have term := (mem_terms_iff sound.shape).mpr ⟨closesWord, reached⟩
              refine plain closes (sound.term term) alive fun fuel => ?_
              rw [round_replay unfinished sound.shape current atEntry spells closesWord fuel, reached]
        | anonymous => exact absurd (by simp [opens, role]) new
        | restricted id => exact absurd (by simp [opens, role]) new

theorem flatMap_ne_nil_iff {α β : Type} {entries : List α} {f : α → List β} :
    entries.flatMap f ≠ [] ↔ ∃ entry ∈ entries, f entry ≠ [] := by
  rw [Ne, List.flatMap_eq_nil_iff, not_forall]
  simp only [exists_prop, ne_eq, not_forall]

/-- **Solutions of the front of a query** are at the ends of the paths that match it. -/
theorem solutions_ne_nil_iff {accepts : Nat → EncodedToken → Bool} (flat : ∀ id token, accepts id token = true → token.arity = 0)
    (rest : EncodedFormula) (front : EncodedFormula) :
    ∀ {opened : Nat} {node : TmpIndexNode} {solved : Solved}, WellFormed opened node →
      Closes EncodedToken.queryArity opened (front ++ rest) →
      (∀ id word, solved.bound id = some word → Closes EncodedToken.arity 1 word) →
      (solutions accepts solved front node ≠ [] ↔
        ∃ word, (walk word node).isSome = true ∧ MatchesQuery accepts solved.bound front word) := by
  induction front with
  | nil =>
    intro opened node solved _ _ _
    exact iff_of_true (List.cons_ne_nil _ _) ⟨[], rfl, matches_nil.mpr rfl⟩
  | cons token front ih =>
    intro opened node solved shape closes complete
    cases opened with
    | zero => exact closes.elim
    | succ opened =>
      rw [List.cons_append, closes_cons] at closes
      -- the terms below the node, each with what it adds to the variables that are known
      have terms : ∀ added : EncodedFormula → Solved, token.role ≠ .constant →
          (∀ term, Closes EncodedToken.arity 1 term → ∀ word, MatchesQuery accepts solved.bound (token :: front) (term ++ word) ↔
            MatchesQuery accepts (added term).bound front word) →
          (∀ term, Closes EncodedToken.arity 1 term → ∀ id word, (added term).bound id = some word →
            Closes EncodedToken.arity 1 word) →
          (((node.terms 1).flatMap fun term => solutions accepts (added term.1) front term.2) ≠ [] ↔
            ∃ word, (walk word node).isSome = true ∧ MatchesQuery accepts solved.bound (token :: front) word) := by
        intro added hole same complete'
        rw [EncodedToken.queryArity, patternArity_hole hole, Nat.add_zero] at closes
        rw [flatMap_ne_nil_iff]
        constructor
        · rintro ⟨⟨term, next⟩, member, lives⟩
          obtain ⟨closesTerm, reached⟩ := (mem_terms_iff shape).mp member
          obtain ⟨word, path, matched⟩ :=
            (ih (wellFormed_of_mem_terms shape member) closes (complete' term closesTerm)).mp lives
          refine ⟨term ++ word, ?_, (same term closesTerm word).mpr matched⟩
          rw [walk_append, reached]
          exact path
        · rintro ⟨word, path, matched⟩
          obtain ⟨term, word, closesTerm, rfl⟩ := matched.exists_front.2 hole
          rw [walk_append] at path
          cases reached : walk term node with
          | none => rw [reached] at path; exact absurd path Bool.false_ne_true
          | some next =>
            rw [reached] at path
            have member := (mem_terms_iff shape).mpr ⟨closesTerm, reached⟩
            exact ⟨(term, next), member, (ih (wellFormed_of_mem_terms shape member) closes (complete' term closesTerm)).mpr
              ⟨word, path, (same term closesTerm word).mp matched⟩⟩
      cases role : token.role with
      | constant =>
        rw [EncodedToken.queryArity, patternArity_constant role] at closes
        simp only [solutions, role]
        have front' : ∀ word, (walk word node).isSome = true ∧ MatchesQuery accepts solved.bound (token :: front) word ↔
            ∃ word', word = token :: word' ∧ ((node.child token).bind (walk word')).isSome = true ∧
              MatchesQuery accepts solved.bound front word' := by
          intro word
          constructor
          · rintro ⟨path, matched⟩
            obtain ⟨word', rfl⟩ := matched.exists_front.1 role
            exact ⟨word', rfl, path, ((matches_constant role).mp matched).2⟩
          · rintro ⟨word', rfl, path, matched⟩
            exact ⟨path, (matches_constant role).mpr ⟨rfl, matched⟩⟩
        simp only [front']
        cases child : node.child token with
        | none => simp
        | some next =>
          have below := ih (shape.child child) closes complete
          simp only [Option.map_some, Option.getD_some, Option.bind_some]
          rw [below]
          constructor
          · rintro ⟨word, both⟩
            exact ⟨token :: word, word, rfl, both⟩
          · rintro ⟨_, word, -, both⟩
            exact ⟨word, both⟩
      | named id =>
        simp only [solutions, role]
        cases known : solved.bound id with
        | none =>
          refine terms (fun term => solved ++ [(.named id, term)]) (by rw [role]; simp) (fun term closesTerm word => ?_)
            fun term closesTerm other word found => ?_
          · rw [bound_append_named known]
            exact matches_named_fresh role known closesTerm
          · rw [bound_append_named known] at found
            by_cases same : other = id
            · rw [same, Function.update_self] at found
              exact Option.some.inj found ▸ closesTerm
            · rw [Function.update_of_ne same] at found
              exact complete other word found
        | some value =>
          rw [EncodedToken.queryArity, patternArity_hole (by rw [role]; simp), Nat.add_zero] at closes
          have closesValue := complete id value known
          have front' : ∀ word, (walk word node).isSome = true ∧ MatchesQuery accepts solved.bound (token :: front) word ↔
              ∃ word', word = value ++ word' ∧ ((walk value node).bind (walk word')).isSome = true ∧
                MatchesQuery accepts solved.bound front word' := by
            intro word
            constructor
            · rintro ⟨path, matched⟩
              obtain ⟨term, word', closesTerm, rfl⟩ := matched.exists_front.2 (by rw [role]; simp)
              obtain ⟨rfl, matched⟩ := (matches_named_bound role known closesTerm).mp matched
              rw [walk_append] at path
              exact ⟨word', rfl, path, matched⟩
            · rintro ⟨word', rfl, path, matched⟩
              rw [walk_append]
              exact ⟨path, (matches_named_bound role known closesValue).mpr ⟨rfl, matched⟩⟩
          simp only [front']
          cases reached : walk value node with
          | none => simp
          | some next =>
            have shape' := wellFormed_of_mem_terms shape ((mem_terms_iff shape).mpr ⟨closesValue, reached⟩)
            have below := ih shape' closes complete
            simp only [Option.map_some, Option.getD_some, Option.bind_some]
            rw [below]
            constructor
            · rintro ⟨word, both⟩
              exact ⟨value ++ word, word, rfl, both⟩
            · rintro ⟨_, word, -, both⟩
              exact ⟨word, both⟩
      | anonymous =>
        simp only [solutions, role]
        refine terms (fun term => solved ++ [(.anonymous, term)]) (by rw [role]; simp) (fun term closesTerm word => ?_)
          fun term closesTerm other word found => ?_
        · rw [bound_append_other (by simp)]
          exact matches_anonymous role closesTerm
        · rw [bound_append_other (by simp)] at found
          exact complete other word found
      | restricted id =>
        rw [EncodedToken.queryArity, patternArity_hole (by rw [role]; simp), Nat.add_zero] at closes
        simp only [solutions, role]
        have boundEq : ∀ word, Solved.bound (solved ++ [(.restricted id, word)]) = solved.bound :=
          bound_append_other (by simp)
        have below : ∀ entry ∈ node.children, accepts id entry.1 = true →
            (solutions accepts (solved ++ [(.restricted id, [entry.1])]) front entry.2 ≠ [] ↔
              ∃ word, (walk word entry.2).isSome = true ∧ MatchesQuery accepts solved.bound front word) := by
          intro entry member yes
          have shape' := shape.entry member
          rw [flat id entry.1 yes, Nat.add_zero] at shape'
          have := @ih _ _ (solved ++ [(.restricted id, [entry.1])]) shape' closes (by rw [boundEq]; exact complete)
          rwa [boundEq] at this
        rw [flatMap_ne_nil_iff]
        constructor
        · rintro ⟨entry, member, lives⟩
          obtain ⟨member, yes⟩ := List.mem_filter.mp member
          obtain ⟨word, path, matched⟩ := (below entry member yes).mp lives
          refine ⟨entry.1 :: word, ?_, (matches_restricted role).mpr ⟨⟨flat id entry.1 yes, yes⟩, matched⟩⟩
          rw [walk, shape.child_of_mem member]
          exact path
        · rintro ⟨word, path, matched⟩
          cases word with
          | nil =>
            obtain ⟨term, rest', closesTerm, empty⟩ := matched.exists_front.2 (by rw [role]; simp)
            rw [(List.append_eq_nil_iff.mp empty.symm).1] at closesTerm
            exact (not_closes_nil closesTerm).elim
          | cons inner word =>
            obtain ⟨⟨closed, yes⟩, matched⟩ := (matches_restricted role).mp matched
            rw [walk] at path
            cases child : node.child inner with
            | none => rw [child] at path; exact absurd path Bool.false_ne_true
            | some next =>
              rw [child] at path
              have member := (VectorMap.find_eq_some_iff shape.sorted).mp child
              exact ⟨(inner, next), List.mem_filter.mpr ⟨member, yes⟩, (below _ member yes).mpr ⟨word, path, matched⟩⟩

end Visits

/-! ### The iterators at the end of a run -/

section Assigned

variable {context : SearchContext D} {index : TmpIndex} {pattern : EncodedFormula} {query : DbQuery}
  {offset size maxTotal fuel : Nat} {known : EncodedToken → Prop}

theorem role_of_isRange {token : EncodedToken} (isRange : token.isRange = true) : token.role = .restricted token.id := by
  obtain ⟨above, -⟩ := Bool.and_eq_true_iff.mp isRange
  have free : token.isVar = false :=
    decide_eq_false (Nat.not_le.mpr (lt_of_lt_of_le (show varIdMax < rangeIdMin by decide) (of_decide_eq_true above)))
  rw [EncodedToken.role, free, if_neg Bool.false_ne_true, if_pos isRange]

theorem opens_of_isRange {seen : List TokenRole} {token : EncodedToken} (isRange : token.isRange = true) :
    opens seen token := by
  simp [opens, role_of_isRange isRange]

/-- The fields of the context of an entry are set. -/
def AssignedAt (table : List (Entry D)) (number : Nat) : Prop :=
  (table.map BacktrackCtxt.assigned)[number]? = some true

/-- A token that opens an entry makes them more. -/
theorem length_specials_lt {front behind : EncodedFormula} {token : EncodedToken} (new : opens (specials [] front) token) :
    (specials [] front).length < (specials [] (front ++ token :: behind)).length := by
  obtain ⟨more, grown⟩ := specials_extends behind (extend (specials [] front) token)
  rw [specials_append, show specials (specials [] front) (token :: behind) =
    specials (extend (specials [] front) token) behind from rfl, grown, extend, if_pos new]
  simp

/-- An entry is opened by one token. -/
theorem front_of_entry {front front' back back' : EncodedFormula} {token token' : EncodedToken}
    (split : front ++ token :: back = front' ++ token' :: back') (new : opens (specials [] front) token)
    (new' : opens (specials [] front') token') (same : (specials [] front).length = (specials [] front').length) :
    front = front' := by
  rcases List.append_eq_append_iff.mp split with ⟨more, rfl, rest⟩ | ⟨more, rfl, rest⟩
  · cases more with
    | nil => exact (List.append_nil front).symm
    | cons head more =>
      obtain ⟨rfl, -⟩ := List.cons.inj rest
      exact absurd same (length_specials_lt new).ne
  · cases more with
    | nil => exact List.append_nil front'
    | cons head more =>
      obtain ⟨rfl, -⟩ := List.cons.inj rest
      exact absurd same (length_specials_lt new').ne'

/-- Every entry is opened by a token of the query. -/
theorem exists_of_entry (pattern : EncodedFormula) {number : Nat} {role : TokenRole}
    (atEntry : (specials [] pattern)[number]? = some role) :
    ∃ front token back, pattern = front ++ token :: back ∧ opens (specials [] front) token ∧
      (specials [] front).length = number ∧ token.role = role := by
  induction pattern using List.reverseRecOn with
  | nil => cases atEntry
  | append_singleton front token ih =>
    have earlier : (specials [] front)[number]? = some role → ∃ front' token' back, front ++ [token] =
        front' ++ token' :: back ∧ opens (specials [] front') token' ∧ (specials [] front').length = number ∧
          token'.role = role := by
      intro atFront
      obtain ⟨front', token', back, rfl, rest⟩ := ih atFront
      exact ⟨front', token', back ++ [token], by simp, rest⟩
    rw [specials_concat, extend] at atEntry
    split_ifs at atEntry with new
    · rcases Nat.lt_or_ge number (specials [] front).length with below | above
      · rw [List.getElem?_append_left below] at atEntry
        exact earlier atEntry
      · rw [List.getElem?_append_right above] at atEntry
        obtain ⟨small, same⟩ := List.getElem?_eq_some_iff.mp atEntry
        rw [List.length_singleton] at small
        obtain rfl : (specials [] front).length = number := by omega
        exact ⟨front, token, [], rfl, new, rfl, by simpa using same⟩
    · exact earlier atEntry

/-- **What an evaluation sets**, entry by entry. -/
theorem Sets.assignedAt_iff {state : SearchState D TmpIndexNode TmpIterator} {table : List (Entry D)}
    (sets : @Sets D index context pattern state table) {front back : EncodedFormula} {token : EncodedToken}
    (split : pattern = front ++ token :: back) (new : opens (specials [] front) token)
    (small : (specials [] front).length < state.bkTable.length) :
    AssignedAt table (specials [] front).length ↔ AssignedAt state.bkTable (specials [] front).length ∨
      state.currentToken = front.length ∧ solutions (accepts context) [] front index.root ≠ [] := by
  rcases sets with ⟨same, plain⟩ | ⟨front', token', back', split', position, new', found, same⟩
  · rw [AssignedAt, AssignedAt, same]
    exact ⟨Or.inl, fun either => either.elim id fun here => absurd new (plain front token back split here.1)⟩
  · by_cases here : (specials [] front').length = (specials [] front).length
    · obtain rfl := front_of_entry (split'.symm.trans split) new' new here
      rw [AssignedAt, same, List.getElem?_set_self (by rwa [List.length_map])]
      exact iff_of_true rfl (Or.inr ⟨position, found⟩)
    · rw [AssignedAt, AssignedAt, same, List.getElem?_set_ne here]
      refine ⟨Or.inl, fun either => either.elim id fun arrived => ?_⟩
      obtain ⟨rfl, -⟩ := List.append_inj (split'.symm.trans split) (position.symm.trans arrived.1)
      exact absurd rfl here

/-- **The invariant of a watched run**: `nextSol` has been called on solved contexts only, the iterators that are set are
those of ranges behind a front with a solution, and the others of these are still to be arrived at. -/
structure Watches (context : SearchContext D) (index : TmpIndex) (pattern : EncodedFormula) (query : DbQuery)
    (offset size maxTotal fuel : Nat) (state : SearchState D TmpIndexNode TmpIterator) (asked : List (Entry D)) : Prop where
  tracks : Tracks context index pattern state
  solved : ∀ ctxt ∈ asked, ctxt.isSolved = true
  founded : ∀ front token back, pattern = front ++ token :: back → token.isRange = true →
    AssignedAt state.bkTable (specials [] front).length →
      0 < maxTotal ∧ solutions (accepts context) [] front index.root ≠ []
  ahead : ∀ front token back, pattern = front ++ token :: back → token.isRange = true → 0 < maxTotal →
    solutions (accepts context) [] front index.root ≠ [] → AssignedAt state.bkTable (specials [] front).length ∨
      ∃ count last, Fuel.Steps (round context index query offset size maxTotal fuel) count state last ∧
        last.currentToken = front.length ∧ last.collected.found < maxTotal

theorem Tracks.ready {state : SearchState D TmpIndexNode TmpIterator} (tracks : Tracks context index pattern state) :
    ∃ solved, Ready context (specials [] pattern) solved state.bkTable := by
  obtain ⟨_, _, solved, _, _, _, _, ready⟩ := tracks
  exact ⟨solved, ready⟩

/-- The entry of a token is one of the table. -/
theorem Tracks.entry_lt {state : SearchState D TmpIndexNode TmpIterator} (tracks : Tracks context index pattern state)
    {front back : EncodedFormula} {token : EncodedToken} (split : pattern = front ++ token :: back)
    (new : opens (specials [] front) token) : (specials [] front).length < state.bkTable.length := by
  obtain ⟨solved, ready⟩ := tracks.ready
  rw [ready.length, split]
  exact length_specials_lt new

/-- What a round leaves, entry by entry. -/
theorem Watches.left_iff (compiled : Compiled context pattern) (decides : DecidesKnown context known pattern)
    (closes : Closes EncodedToken.queryArity 1 pattern) (sound : Sound known 1 index.root)
    {state : SearchState D TmpIndexNode TmpIterator} {asked : List (Entry D)}
    (watches : Watches context index pattern query offset size maxTotal fuel state asked)
    {next : SearchState D TmpIndexNode TmpIterator ⊕ Collected TmpIndexNode}
    (stepped : round context index query offset size maxTotal fuel state = some next) {left more : List (Entry D)}
    (leaves : leftBehind strictAccessor index context maxTotal fuel state = some (left, more)) :
    left.length = state.bkTable.length ∧
      ∀ front token back, pattern = front ++ token :: back → opens (specials [] front) token →
        (AssignedAt left (specials [] front).length ↔ AssignedAt state.bkTable (specials [] front).length ∨
          state.collected.found < maxTotal ∧ state.currentToken = front.length ∧
            solutions (accepts context) [] front index.root ≠ []) := by
  obtain ⟨-, sets, same, -⟩ := watches.tracks.round compiled decides closes sound stepped leaves
  by_cases unfinished : state.collected.found < maxTotal
  · obtain ⟨table, sets, same⟩ := sets unfinished
    refine ⟨?_, fun front token back split new => ?_⟩
    · have lengths := congrArg List.length same
      rw [List.length_map, List.length_map] at lengths
      rw [lengths]
      rcases sets with ⟨kept, -⟩ | ⟨_, _, _, _, _, _, _, set⟩
      · simpa using congrArg List.length kept
      · simpa using congrArg List.length set
    · rw [AssignedAt, same]
      exact (sets.assignedAt_iff split new (watches.tracks.entry_lt split new)).trans (by simp [unfinished])
  · rw [same unfinished]
    exact ⟨rfl, fun _ _ _ _ _ => by simp [unfinished]⟩

/-- **A range that is still to be arrived at** is arrived at in this round, or is ahead of the next. -/
theorem Watches.ahead_left (compiled : Compiled context pattern) (decides : DecidesKnown context known pattern)
    (closes : Closes EncodedToken.queryArity 1 pattern) (sound : Sound known 1 index.root)
    {state : SearchState D TmpIndexNode TmpIterator} {asked : List (Entry D)}
    (watches : Watches context index pattern query offset size maxTotal fuel state asked)
    {next : SearchState D TmpIndexNode TmpIterator ⊕ Collected TmpIndexNode}
    (stepped : round context index query offset size maxTotal fuel state = some next) {left more : List (Entry D)}
    (leaves : leftBehind strictAccessor index context maxTotal fuel state = some (left, more))
    {front back : EncodedFormula} {token : EncodedToken} (split : pattern = front ++ token :: back)
    (isRange : token.isRange = true) (positive : 0 < maxTotal)
    (found : solutions (accepts context) [] front index.root ≠ []) :
    AssignedAt left (specials [] front).length ∨ ∃ state', next = .inl state' ∧
      ∃ count last, Fuel.Steps (round context index query offset size maxTotal fuel) count state' last ∧
        last.currentToken = front.length ∧ last.collected.found < maxTotal := by
  obtain ⟨-, assigned⟩ := watches.left_iff compiled decides closes sound stepped leaves
  rw [assigned front token back split (opens_of_isRange isRange)]
  rcases watches.ahead front token back split isRange positive found with already | ⟨count, last, steps, arrived⟩
  · exact Or.inl (Or.inl already)
  · cases steps with
    | refl => exact Or.inl (Or.inr ⟨arrived.2, arrived.1, found⟩)
    | @head count _ middle _ here later =>
      rw [stepped] at here
      exact Or.inr ⟨middle, Option.some.inj here, count, last, later, arrived⟩

theorem Watches.founded_left (compiled : Compiled context pattern) (decides : DecidesKnown context known pattern)
    (closes : Closes EncodedToken.queryArity 1 pattern) (sound : Sound known 1 index.root)
    {state : SearchState D TmpIndexNode TmpIterator} {asked : List (Entry D)}
    (watches : Watches context index pattern query offset size maxTotal fuel state asked)
    {next : SearchState D TmpIndexNode TmpIterator ⊕ Collected TmpIndexNode}
    (stepped : round context index query offset size maxTotal fuel state = some next) {left more : List (Entry D)}
    (leaves : leftBehind strictAccessor index context maxTotal fuel state = some (left, more))
    {front back : EncodedFormula} {token : EncodedToken} (split : pattern = front ++ token :: back)
    (isRange : token.isRange = true) (set : AssignedAt left (specials [] front).length) :
    0 < maxTotal ∧ solutions (accepts context) [] front index.root ≠ [] := by
  obtain ⟨-, assigned⟩ := watches.left_iff compiled decides closes sound stepped leaves
  rcases (assigned front token back split (opens_of_isRange isRange)).mp set with already | ⟨unfinished, -, found⟩
  · exact watches.founded front token back split isRange already
  · exact ⟨Nat.zero_lt_of_lt unfinished, found⟩

/-- The contexts a round asks are solved. -/
theorem Watches.solved_left (compiled : Compiled context pattern) (decides : DecidesKnown context known pattern)
    (closes : Closes EncodedToken.queryArity 1 pattern) (sound : Sound known 1 index.root)
    {state : SearchState D TmpIndexNode TmpIterator} {asked : List (Entry D)}
    (watches : Watches context index pattern query offset size maxTotal fuel state asked)
    {next : SearchState D TmpIndexNode TmpIterator ⊕ Collected TmpIndexNode}
    (stepped : round context index query offset size maxTotal fuel state = some next) {left more : List (Entry D)}
    (leaves : leftBehind strictAccessor index context maxTotal fuel state = some (left, more)) :
    ∀ ctxt ∈ asked ++ more, ctxt.isSolved = true := by
  obtain ⟨asks, -, -, -⟩ := watches.tracks.round compiled decides closes sound stepped leaves
  intro ctxt member
  exact (List.mem_append.mp member).elim (watches.solved ctxt) (asks ctxt)

/-- **The invariant is kept by a round.** -/
theorem Watches.round (compiled : Compiled context pattern) (decides : DecidesKnown context known pattern)
    (closes : Closes EncodedToken.queryArity 1 pattern) (sound : Sound known 1 index.root)
    {state state' : SearchState D TmpIndexNode TmpIterator} {asked more : List (Entry D)}
    (watches : Watches context index pattern query offset size maxTotal fuel state asked)
    (stepped : SearchContext.round context index query offset size maxTotal fuel state = some (.inl state'))
    (leaves : leftBehind strictAccessor index context maxTotal fuel state = some (state'.bkTable, more)) :
    Watches context index pattern query offset size maxTotal fuel state' (asked ++ more) where
  tracks := (watches.tracks.round compiled decides closes sound stepped leaves).2.2.2 state' rfl
  solved := watches.solved_left compiled decides closes sound stepped leaves
  founded front token back split isRange set :=
    watches.founded_left compiled decides closes sound stepped leaves split isRange set
  ahead front token back split isRange positive found := by
    rcases watches.ahead_left compiled decides closes sound stepped leaves split isRange positive found with
      set | ⟨onward, same, later⟩
    · exact Or.inl set
    · rw [Sum.inl.inj same]
      exact Or.inr later

/-- The table at the end: an entry of a variable has its fields set. -/
theorem Watches.all_assigned_iff (compiled : Compiled context pattern) (decides : DecidesKnown context known pattern)
    (closes : Closes EncodedToken.queryArity 1 pattern) (sound : Sound known 1 index.root)
    {state : SearchState D TmpIndexNode TmpIterator} {asked : List (Entry D)}
    (watches : Watches context index pattern query offset size maxTotal fuel state asked)
    {collected : Collected TmpIndexNode}
    (stepped : SearchContext.round context index query offset size maxTotal fuel state = some (.inr collected))
    {left more : List (Entry D)}
    (leaves : leftBehind strictAccessor index context maxTotal fuel state = some (left, more)) :
    (∀ ctxt ∈ left, ctxt.assigned = true) ↔
      ∀ front token back, pattern = front ++ token :: back → token.isRange = true →
        0 < maxTotal ∧ solutions (accepts context) [] front index.root ≠ [] := by
  obtain ⟨length, assigned⟩ := watches.left_iff compiled decides closes sound stepped leaves
  constructor
  · intro all front token back split isRange
    refine watches.founded_left compiled decides closes sound stepped leaves split isRange ?_
    have small := watches.tracks.entry_lt split (@opens_of_isRange (specials [] front) _ isRange)
    rw [← length] at small
    rw [AssignedAt, List.getElem?_map, List.getElem?_eq_getElem small, Option.map_some,
      all _ (List.getElem_mem small)]
  · intro reached ctxt member
    obtain ⟨number, atNumber⟩ := List.mem_iff_getElem?.mp member
    obtain ⟨solved, ready⟩ := watches.tracks.ready
    have small : number < (specials [] pattern).length := by
      rw [← ready.length, ← length]
      exact (List.getElem?_eq_some_iff.mp atNumber).1
    obtain ⟨front, token, back, split, new, rfl, role⟩ := exists_of_entry pattern (List.getElem?_eq_getElem small)
    have set : AssignedAt left (specials [] front).length := by
      by_cases isRange : token.isRange = true
      · obtain ⟨positive, found⟩ := reached front token back split isRange
        rcases watches.ahead_left compiled decides closes sound stepped leaves split isRange positive found with
          set | ⟨onward, same, -⟩
        · exact set
        · cases same
      · rw [assigned front token back split new]
        refine Or.inl ?_
        obtain ⟨entry, atEntry, ok⟩ := ready.entry _ _ (List.getElem?_eq_getElem small)
        rw [AssignedAt, List.getElem?_map, atEntry, Option.map_some]
        rw [← role] at ok
        cases entry with
        | qvar => rfl
        | range isSolved bounds root iterator =>
          cases kind : token.role with
          | restricted id => exact absurd (isRange_of_role kind) isRange
          | constant => exact absurd kind (role_of_opens new)
          | named id =>
            rw [kind] at ok
            cases word : solved[(specials [] front).length]?.map Prod.snd <;> rw [word] at ok <;> exact ok.elim
          | anonymous =>
            rw [kind] at ok
            cases word : solved[(specials [] front).length]?.map Prod.snd <;> rw [word] at ok <;> exact ok.elim
    rw [AssignedAt, List.getElem?_map, atNumber, Option.map_some] at set
    exact Option.some.inj set

/-- **A run that returns**, over the accessor that has to answer: `nextSol` is called on solved contexts only, and all
iterators are set at its end exactly if the front of every range has a solution. -/
theorem watchedRun_of_search (compiled : Compiled context pattern) (decides : DecidesKnown context known pattern)
    (bounds : ∀ token ∈ pattern, ∀ id, token.role = .restricted id → (context.rangeBounds.lookup id).isSome)
    (closes : Closes EncodedToken.queryArity 1 pattern) (sound : Sound known 1 index.root)
    {collected : Collected TmpIndexNode}
    (searched : context.search strictAccessor index query fuel offset size maxTotal = some collected) :
    ∃ (table asked : List (Entry D)),
      context.watchedRun strictAccessor index query offset size maxTotal fuel = some (table, asked) ∧
      (∀ ctxt ∈ asked, ctxt.isSolved = true) ∧
      ((∀ ctxt ∈ table, ctxt.assigned = true) ↔ ∀ front token back, pattern = front ++ token :: back →
        token.isRange = true → 0 < maxTotal ∧ solutions (accepts context) [] front index.root ≠ []) := by
  have start : Ready context [] [] ([] : List (Entry D)) := ⟨rfl, fun number role found => by cases found⟩
  obtain ⟨table, setup, ready⟩ := setupTable_spec pattern bounds start
  obtain ⟨_, rfl, unsolved⟩ := setupTable_unsolved context (triples [] pattern) setup
  rw [search, compiled.expr, setup] at searched
  have looped : Fuel.loop (SearchContext.round context index query offset (checkedSize offset size maxTotal) maxTotal fuel)
      fuel ⟨table, 0, index.root, 0, nothing⟩ = some collected := searched
  have begun : Watches context index pattern query offset (checkedSize offset size maxTotal) maxTotal fuel
      ⟨table, 0, index.root, 0, nothing⟩ [] := by
    refine ⟨⟨[], pattern, [], rfl, rfl, rfl, .start, ready⟩, fun ctxt member => absurd member List.not_mem_nil, ?_, ?_⟩
    · intro front token back split isRange set
      obtain ⟨ctxt, atEntry, assigned⟩ := Option.map_eq_some_iff.mp ((List.getElem?_map ..).symm.trans set)
      have atRole := (((split ▸ compiled : Compiled context (front ++ token :: back))).entry_at
        (opens_of_isRange isRange)).1
      rw [← split, role_of_isRange isRange] at atRole
      obtain ⟨entry, atEntry', fresh⟩ := ready.entry _ _ atRole
      obtain rfl : ctxt = entry := Option.some.inj (atEntry.symm.trans atEntry')
      rcases unsolved ctxt (List.mem_of_getElem? atEntry) with rfl | ⟨limits, rfl⟩
      · exact fresh.elim
      · cases assigned
    · intro front token back split isRange positive found
      have visits : Visits context index query offset (checkedSize offset size maxTotal) maxTotal front.length
          ⟨table, 0, index.root, 0, nothing⟩ :=
        visits_front compiled decides front [] split rfl (fun entry member => absurd member List.not_mem_nil)
          (split ▸ closes) sound ready positive found
      exact Or.inr (visits.of_loop (searchStep_mono strictAccessor index query context offset _ maxTotal) looped)
  obtain ⟨table, asked, watched, solved, all⟩ := loop_watchedStep
    (P := Watches context index pattern query offset (checkedSize offset size maxTotal) maxTotal fuel)
    (Q := fun table asked => (∀ ctxt ∈ asked, ctxt.isSolved = true) ∧ ((∀ ctxt ∈ table, ctxt.assigned = true) ↔
      ∀ front token back, pattern = front ++ token :: back → token.isRange = true →
        0 < maxTotal ∧ solutions (accepts context) [] front index.root ≠ []))
    (fun watches stepped leaves => watches.round compiled decides closes sound stepped leaves)
    (fun watches stepped leaves => ⟨watches.solved_left compiled decides closes sound stepped leaves,
      watches.all_assigned_iff compiled decides closes sound stepped leaves⟩) fuel begun looped
  refine ⟨table, asked, ?_, solved, all⟩
  rw [watchedRun, compiled.expr, setup]
  exact watched

end Assigned

/-! ### Ranges are set before they are destroyed -/

section Destroyed

/-- A word leads to a node exactly if a stored formula begins with it. -/
theorem isSome_walk_iff (word : EncodedFormula) : ∀ {opened : Nat} {node : TmpIndexNode}, WellFormed opened node →
    ((walk word node).isSome = true ↔ ∃ entry ∈ leaves node, word <+: entry.1) := by
  induction word with
  | nil =>
    intro opened node shape
    obtain ⟨entry, rest, cons⟩ := List.exists_cons_of_ne_nil (leaves_ne_nil shape)
    exact iff_of_true rfl ⟨entry, by rw [cons]; exact List.mem_cons_self, List.nil_prefix⟩
  | cons token word ih =>
    intro opened node shape
    cases shape with
    | leaf leaf =>
      rw [leaves_leafNode]
      exact iff_of_false Bool.false_ne_true (by simp)
    | @inner opened children nonempty sorted below =>
      rw [leaves_inner]
      constructor
      · intro path
        obtain ⟨next, found, path⟩ : ∃ next, (TmpIndexNode.mk none children).child token = some next ∧
            (walk word next).isSome = true := by
          rw [walk] at path
          obtain ⟨last, path⟩ := Option.isSome_iff_exists.mp path
          obtain ⟨next, found, path⟩ := Option.bind_eq_some_iff.mp path
          exact ⟨next, found, Option.isSome_iff_exists.mpr ⟨last, path⟩⟩
        have member := (VectorMap.find_eq_some_iff sorted).mp found
        obtain ⟨⟨rest, leaf⟩, stored, starts⟩ := (ih (below _ member)).mp path
        exact ⟨(token :: rest, leaf), mem_leavesOf.mpr ⟨token, next, rest, member, stored, rfl⟩,
          List.cons_prefix_cons.mpr ⟨rfl, starts⟩⟩
      · rintro ⟨⟨path, leaf⟩, stored, starts⟩
        obtain ⟨token', next, rest, member, inside, rfl⟩ := mem_leavesOf.mp stored
        obtain ⟨rfl, starts'⟩ := List.cons_prefix_cons.mp starts
        have onward := (ih (below _ member)).mpr ⟨_, inside, starts'⟩
        have found : (TmpIndexNode.mk none children).child token = some next := (VectorMap.find_eq_some_iff sorted).mpr member
        rw [walk, found]
        exact onward

theorem forall₂_all {α β : Type} {R : α → β → Prop} {p : α → Bool} {q : β → Bool} (same : ∀ {a b}, R a b → q b = p a)
    {first : List α} {second : List β} (related : List.Forall₂ R first second) :
    (∀ b ∈ second, q b = true) ↔ ∀ a ∈ first, p a = true := by
  induction related with
  | nil => simp
  | cons head _ ih => rw [List.forall_mem_cons, List.forall_mem_cons, same head, ih]

variable {Node Iterator Node' Iterator' : Type} {SameNode : Node → Node' → Prop} {SameIterator : Iterator → Iterator' → Prop}

theorem assigned_same {ctxt : BacktrackCtxt D Node Iterator} {ctxt' : BacktrackCtxt D Node' Iterator'}
    (same : BacktrackCtxt.Same SameNode SameIterator ctxt ctxt') : ctxt'.assigned = ctxt.assigned := by
  cases same with
  | qvar => rfl
  | range isSolved bounds roots iterators => cases iterators <;> rfl

theorem isSolved_same {ctxt : BacktrackCtxt D Node Iterator} {ctxt' : BacktrackCtxt D Node' Iterator'}
    (same : BacktrackCtxt.Same SameNode SameIterator ctxt ctxt') : ctxt'.isSolved = ctxt.isSolved := by
  cases same <;> rfl

/-- Matches are asked for, and in front of every range a stored formula matches the query so far. -/
def ArrivesAtRanges (context : SearchContext D) (index : TmpIndex) (maxTotal : Nat) (pattern : EncodedFormula) : Prop :=
  ∀ front token back, pattern = front ++ token :: back → token.isRange = true →
    0 < maxTotal ∧ ∃ entry ∈ index.leaves, ∃ word, word <+: entry.1 ∧ MatchesQuery (accepts context) (fun _ => none) front word

/-- **The iterators of ranges**: on every non-empty index and for every query, in memory and on every image of the index, a
run of `getResult` comes to its end and calls `nextSol` on solved contexts only. At the end all iterators are set exactly if
the run arrives at every range. -/
theorem rangeContexts_iff {index : TmpIndex} (built : index.Built) (nonempty : ¬ index.IsEmpty) {pattern : EncodedFormula}
    (options : QueryOptions) {rangeBounds : List (Nat × D.Carrier × D.Carrier)} {meaningDict : Option MeaningDictionary}
    (answerable : Answerable rangeBounds meaningDict index pattern) {query : DbQuery}
    (answers : ∀ id offset size, (query id offset size).isSome) (offset size maxTotal : Nat) :
    ∃ enough, ∀ fuel, enough ≤ fuel →
      (∃ run, (new pattern options rangeBounds meaningDict).watchedRun tmpIndexAccessor index query offset size maxTotal
            fuel = some run ∧ (∀ ctxt ∈ run.2, ctxt.isSolved = true) ∧
          ((∀ ctxt ∈ run.1, ctxt.assigned = true) ↔
            ArrivesAtRanges (new pattern options rangeBounds meaningDict) index maxTotal pattern)) ∧
      ∀ handle : IndexHandle, Represents Fits handle.image index.root handle.root →
        ∃ run, (new pattern options rangeBounds meaningDict).watchedRun indexAccessor handle query offset size maxTotal
            fuel = some run ∧ (∀ ctxt ∈ run.2, ctxt.isSolved = true) ∧
          ((∀ ctxt ∈ run.1, ctxt.assigned = true) ↔
            ArrivesAtRanges (new pattern options rangeBounds meaningDict) index maxTotal pattern) := by
  have shape := built.wellFormed nonempty
  have closes := EncodedFormula.isQueryCode_iff.mp answerable.complete
  have limits : ∀ token ∈ pattern, ∀ id, token.role = .restricted id → (rangeBounds.lookup id).isSome := by
    intro token member id role
    rw [← EncodedToken.id_of_role role]
    exact answerable.bounds token member (isRange_of_role role)
  let known : EncodedToken → Prop := fun token => ∃ entry ∈ index.leaves, token ∈ entry.1
  have sound : Sound known 1 index.root := ⟨shape, fun entry member token among => ⟨entry, member, among⟩⟩
  have decides : DecidesKnown (new pattern options rangeBounds meaningDict) known pattern := by
    intro token member id role other among
    obtain ⟨entry, stored, inside⟩ := among
    refine decides_of_decodes options rangeBounds meaningDict (limits token member id role) ?_
    exact answerable.decodes ⟨token, member, isRange_of_role role⟩ entry stored other inside
  obtain ⟨collected, folded⟩ := Option.isSome_iff_exists.mp
    (isSome_foldlM_absorb (new pattern options rangeBounds meaningDict) index answers offset
      (checkedSize offset size maxTotal) maxTotal (matching (accepts (new pattern options rangeBounds meaningDict))
        (fun _ => none) pattern index.root) nothing)
  obtain ⟨enough, searched⟩ := search_shaped shape answerable.complete answerable.bounds answerable.decodes folded
  have arrives : (∀ front token back, pattern = front ++ token :: back → token.isRange = true →
      0 < maxTotal ∧ solutions (accepts (new pattern options rangeBounds meaningDict)) [] front index.root ≠ []) ↔
      ArrivesAtRanges (new pattern options rangeBounds meaningDict) index maxTotal pattern := by
    refine forall_congr' fun front => forall_congr' fun token => forall_congr' fun back => forall_congr' fun split =>
      forall_congr' fun _ => and_congr_right fun _ => ?_
    rw [solutions_ne_nil_iff (fun id token yes => arity_of_accepts yes) (token :: back) front shape (split ▸ closes)
      (fun id word found => by cases found)]
    constructor
    · rintro ⟨word, path, matched⟩
      obtain ⟨entry, stored, starts⟩ := (isSome_walk_iff word shape).mp path
      exact ⟨entry, stored, word, starts, matched⟩
    · rintro ⟨entry, stored, word, starts, matched⟩
      exact ⟨word, (isSome_walk_iff word shape).mpr ⟨entry, stored, starts⟩, matched⟩
  refine ⟨enough, fun fuel more => ?_⟩
  obtain ⟨table, asked, watched, solved, all⟩ := watchedRun_of_search
    (compiled_new options rangeBounds meaningDict pattern) decides limits closes sound (searched fuel more)
  refine ⟨?_, fun handle root => ?_⟩
  · obtain ⟨run, inMemory, tables, asks⟩ := watchedRun_follows (simulates_strictAccessor index)
      (new pattern options rangeBounds meaningDict) query offset size maxTotal fuel _ watched
    exact ⟨run, inMemory, (forall₂_all (p := BacktrackCtxt.isSolved) (q := BacktrackCtxt.isSolved) isSolved_same asks).mpr solved,
      (forall₂_all (p := BacktrackCtxt.assigned) (q := BacktrackCtxt.assigned) assigned_same tables).trans (all.trans arrives)⟩
  · obtain ⟨run, onImage, tables, asks⟩ := watchedRun_follows (simulates_indexAccessor root)
      (new pattern options rangeBounds meaningDict) query offset size maxTotal fuel _ watched
    exact ⟨run, onImage, (forall₂_all (p := BacktrackCtxt.isSolved) (q := BacktrackCtxt.isSolved) isSolved_same asks).mpr solved,
      (forall₂_all (p := BacktrackCtxt.assigned) (q := BacktrackCtxt.assigned) assigned_same tables).trans (all.trans arrives)⟩

/-- The search for `f(v, v, r)` in the index of `f(x, x, 3)` and `f(x, 3, 3)`. -/
theorem rangeContexts_sample : ∃ enough, ∀ fuel, enough ≤ fuel →
    ∃ run, sampleContext.watchedRun tmpIndexAccessor sampleIndex (fun _ _ _ => some []) 0 10 10 fuel = some run ∧
      (∀ ctxt ∈ run.2, ctxt.isSolved = true) ∧
      ((∀ ctxt ∈ run.1, ctxt.assigned = true) ↔ ArrivesAtRanges sampleContext sampleIndex 10 sampleQuery) := by
  obtain ⟨enough, runs⟩ := rangeContexts_iff sampleIndex_built.1 sampleIndex_built.2 {}
    (⟨by decide, by decide, fun _ => sampleIndex_decodes⟩ : Answerable (D := Doubles.whole) [(129, ((1 : Nat), (5 : Nat)))]
      (some sampleDictionary) sampleIndex sampleQuery)
    (show ∀ id offset size, ((fun _ _ _ => some [] : DbQuery) id offset size).isSome from fun _ _ _ => rfl) 0 10 10
  exact ⟨enough, fun fuel more => (runs fuel more).1⟩

/-- `g(r)` with the range `r` from 1 to 5, and a `g` that is not in the index. -/
def missingContext : SearchContext Doubles.whole :=
  new [encodedToken 200 1, encodedToken 129 1] {} [(129, ((1 : Nat), (5 : Nat)))] (some sampleDictionary)

/-- The search for `g(r)` ends without a look at the range: its iterator is not set. -/
theorem not_rangeContexts : ∃ run, missingContext.watchedRun tmpIndexAccessor sampleIndex (fun _ _ _ => some []) 0 10 10 5 =
    some run ∧ ∃ ctxt ∈ run.1, ctxt.assigned = false := by
  have computed : (missingContext.watchedRun tmpIndexAccessor sampleIndex (fun _ _ _ => some []) 0 10 10 5).map
      (fun run => run.1.any fun ctxt => !ctxt.assigned) = some true := by decide +kernel
  obtain ⟨run, watched, unset⟩ := Option.map_eq_some_iff.mp computed
  obtain ⟨ctxt, member, unset⟩ := List.any_eq_true.mp unset
  exact ⟨run, watched, ctxt, member, by simpa using unset⟩

end Destroyed

end SearchContext

end MathWebSearch
