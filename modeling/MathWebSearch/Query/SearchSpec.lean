/-
**What a search is for** (the specification `SearchContext` is compared with).

* `EncodedToken.role` — the class of a query token, as the constructor of `SearchContext` decides it.
* `solutions` — the search as a recursion over the query: the nodes at which it is used up, in the
  order in which a backtracking walk meets them.
* `solutions_eq_filter` — these are the leaves whose formulas are instances of the query, in depth-first
  order.
* `triples`, `points`, `specials` — what the constructor computes, as recursions over the query;
  `new_spec` says that it does.
-/

import MathWebSearch.Library.PatternWord
import MathWebSearch.Index.IteratorTrace
import MathWebSearch.Query.SearchContext

namespace MathWebSearch

open PrefixCode PatternWord TmpIndexNode

/-- The role of a query token: variables by their ids, ranges by theirs. -/
abbrev TokenRole := Role Nat Nat

/-- The class the constructor of `SearchContext` puts a token into. -/
def EncodedToken.role (token : EncodedToken) : TokenRole :=
  if token.isVar then if token.isAnonVar then .anonymous else .named token.id
  else if token.isRange then .restricted token.id
  else .constant

/-- A range is known by its id. -/
theorem EncodedToken.id_of_role {token : EncodedToken} {id : Nat} (role : token.role = .restricted id) :
    token.id = id := by
  unfold EncodedToken.role at role
  split at role
  · split at role <;> cases role
  · split at role
    · exact Role.restricted.inj role
    · cases role

/-- The arity of a query token: variables and ranges are whole subterms. -/
abbrev EncodedToken.queryArity (token : EncodedToken) : Nat :=
  patternArity EncodedToken.arity EncodedToken.role token

/-- The query is a complete prefix code, every variable and range counted as one subterm. -/
def EncodedFormula.IsQueryCode (query : EncodedFormula) : Prop :=
  IsComplete EncodedToken.queryArity query

theorem EncodedFormula.isQueryCode_iff {query : EncodedFormula} :
    query.IsQueryCode ↔ Closes EncodedToken.queryArity 1 query := isComplete_iff_closes query

instance (query : EncodedFormula) : Decidable query.IsQueryCode :=
  decidable_of_iff' _ EncodedFormula.isQueryCode_iff

/-- What a formula has to be to match a query, the variables of `bound` being given. -/
abbrev MatchesQuery (accepts : Nat → EncodedToken → Bool) (bound : Nat → Option EncodedFormula)
    (query formula : EncodedFormula) : Prop :=
  Matches EncodedToken.arity EncodedToken.role accepts bound query formula

/-! ### The search as a recursion -/

/-- The variables and ranges solved so far, with what they stand for. -/
abbrev Solved := List (TokenRole × EncodedFormula)

/-- The named variables among them. -/
def Solved.bound (solved : Solved) (id : Nat) : Option EncodedFormula := solved.lookup (.named id)

/-- **The nodes at which the query is used up**, in the order of a backtracking walk. -/
def solutions (accepts : Nat → EncodedToken → Bool) :
    Solved → EncodedFormula → TmpIndexNode → List TmpIndexNode
  | _, [], node => [node]
  | solved, token :: rest, node =>
    match token.role with
    | .constant => ((node.child token).map (solutions accepts solved rest)).getD []
    | .named id =>
      match solved.bound id with
      | some word => ((walk word node).map (solutions accepts solved rest)).getD []
      | none => (node.terms 1).flatMap fun term =>
          solutions accepts (solved ++ [(.named id, term.1)]) rest term.2
    | .anonymous => (node.terms 1).flatMap fun term =>
        solutions accepts (solved ++ [(.anonymous, term.1)]) rest term.2
    | .restricted id => (node.children.filter fun entry => accepts id entry.1).flatMap fun entry =>
        solutions accepts (solved ++ [(.restricted id, [entry.1])]) rest entry.2

theorem bound_append_named {solved : Solved} {id : Nat} (fresh : solved.bound id = none)
    (word : EncodedFormula) :
    Solved.bound (solved ++ [(.named id, word)]) = Function.update solved.bound id (some word) := by
  funext other
  rw [Solved.bound, List.lookup_append]
  by_cases same : other = id
  · subst same
    rw [Function.update_self, show solved.lookup (.named other) = none from fresh]
    simp
  · rw [Function.update_of_ne same]
    have different : ((Role.named other : TokenRole) == .named id) = false := by simpa using same
    simp [List.lookup, different, Solved.bound]

theorem bound_append_other {solved : Solved} {role : TokenRole} (unnamed : ∀ id, role ≠ .named id)
    (word : EncodedFormula) : Solved.bound (solved ++ [(role, word)]) = solved.bound := by
  funext id
  have different : ((Role.named id : TokenRole) == role) = false := by
    simpa using fun same => unnamed id same.symm
  rw [Solved.bound, List.lookup_append]
  simp [List.lookup, different, Solved.bound]

/-! ### Lists with one entry for a key -/

theorem flatMap_key {κ ν β : Type} [DecidableEq κ] {entries : List (κ × ν)}
    (nodup : (entries.map Prod.fst).Nodup) {key : κ} {value : ν} (member : (key, value) ∈ entries)
    (f : ν → List β) :
    (entries.flatMap fun entry => if entry.1 = key then f entry.2 else []) = f value := by
  induction entries with
  | nil => cases member
  | cons head rest ih =>
    rw [List.map_cons, List.nodup_cons] at nodup
    rw [List.flatMap_cons]
    rcases List.mem_cons.mp member with rfl | member
    · have absent : (rest.flatMap fun entry => if entry.1 = key then f entry.2 else []) = [] := by
        refine List.flatMap_eq_nil_iff.mpr fun entry inside => if_neg fun same => nodup.1 ?_
        exact List.mem_map.mpr ⟨entry, inside, same⟩
      rw [if_pos rfl, absent, List.append_nil]
    · have different : head.1 ≠ key := by
        rintro rfl
        exact nodup.1 (List.mem_map.mpr ⟨_, member, rfl⟩)
      rw [if_neg different, List.nil_append, ih nodup.2 member]

theorem flatMap_filter {α β : Type} (entries : List α) (p : α → Bool) (f : α → List β) :
    (entries.filter p).flatMap f = entries.flatMap fun entry => if p entry = true then f entry else [] := by
  induction entries with
  | nil => rfl
  | cons entry rest ih =>
    by_cases holds : p entry = true
    · rw [List.filter_cons_of_pos holds, List.flatMap_cons, List.flatMap_cons, ih, if_pos holds]
    · rw [List.filter_cons_of_neg holds, List.flatMap_cons, ih, if_neg holds, List.nil_append]

theorem flatMap_key_absent {κ ν β : Type} [DecidableEq κ] {entries : List (κ × ν)} {key : κ}
    (absent : ∀ value, (key, value) ∉ entries) (f : ν → List β) :
    (entries.flatMap fun entry => if entry.1 = key then f entry.2 else []) = [] := by
  refine List.flatMap_eq_nil_iff.mpr fun entry inside => if_neg ?_
  rintro rfl
  exact absent entry.2 inside

/-! ### The solutions are the leaves that match -/

section Matching

open Classical

variable (accepts : Nat → EncodedToken → Bool) (bound : Nat → Option EncodedFormula)

/-- The leaves below a node whose formulas match once something is put in front of them. -/
noncomputable def matchingBehind (front : EncodedFormula → EncodedFormula) (query : EncodedFormula)
    (node : TmpIndexNode) : List (EncodedFormula × TmpLeaf) :=
  (leaves node).filter fun entry => decide (MatchesQuery accepts bound query (front entry.1))

/-- **The leaves below a node whose formulas match**, in depth-first order. -/
noncomputable def matching (query : EncodedFormula) (node : TmpIndexNode) :
    List (EncodedFormula × TmpLeaf) :=
  (leaves node).filter fun entry => decide (MatchesQuery accepts bound query entry.1)

/-- The nodes of the leaves in a list. -/
def leafNodes (entries : List (EncodedFormula × TmpLeaf)) : List TmpIndexNode :=
  entries.map fun entry => leafNode entry.2

theorem leafNodes_filter_map (query : EncodedFormula) (front : EncodedFormula → EncodedFormula)
    (node : TmpIndexNode) :
    leafNodes (((leaves node).map fun entry => (front entry.1, entry.2)).filter fun entry =>
        decide (MatchesQuery accepts bound query entry.1)) =
      leafNodes (matchingBehind accepts bound front query node) := by
  rw [List.filter_map, leafNodes, leafNodes, List.map_map]
  rfl

/-- The matching leaves, along the terms below the node. -/
theorem leafNodes_matching_terms {base : Nat} {node : TmpIndexNode} (shape : WellFormed (base + 1) node)
    (query : EncodedFormula) :
    leafNodes (matching accepts bound query node) = (node.terms 1).flatMap fun term =>
      leafNodes (matchingBehind accepts bound (term.1 ++ ·) query term.2) := by
  rw [matching, leaves_eq_terms shape, List.filter_flatMap, leafNodes, List.map_flatMap]
  exact List.flatMap_congr fun term _ => leafNodes_filter_map accepts bound query (term.1 ++ ·) term.2

/-- The matching leaves, along the children of the node. -/
theorem leafNodes_matching_children {opened : Nat} {node : TmpIndexNode}
    (shape : WellFormed (opened + 1) node) (query : EncodedFormula) :
    leafNodes (matching accepts bound query node) = node.children.flatMap fun child =>
      leafNodes (matchingBehind accepts bound (child.1 :: ·) query child.2) := by
  cases shape with
  | @inner _ children _ _ _ =>
    rw [matching, leaves_inner, leavesOf_eq_flatMap, List.filter_flatMap, leafNodes, List.map_flatMap]
    exact List.flatMap_congr fun child _ => leafNodes_filter_map accepts bound query (child.1 :: ·) child.2

variable {accepts bound} {front : EncodedFormula → EncodedFormula} {query rest : EncodedFormula}

theorem matchingBehind_eq {bound' : Nat → Option EncodedFormula} (node : TmpIndexNode)
    (same : ∀ word, MatchesQuery accepts bound query (front word) ↔ MatchesQuery accepts bound' rest word) :
    matchingBehind accepts bound front query node = matching accepts bound' rest node := by
  simp only [matchingBehind, matching, same]

/-- What stands in front decides by itself whether the rest is looked at. -/
theorem matchingBehind_ite {condition : Prop} [Decidable condition] (node : TmpIndexNode)
    (same : ∀ word, MatchesQuery accepts bound query (front word) ↔
      condition ∧ MatchesQuery accepts bound rest word) :
    leafNodes (matchingBehind accepts bound front query node) =
      if condition then leafNodes (matching accepts bound rest node) else [] := by
  by_cases holds : condition
  · rw [if_pos holds, matchingBehind_eq node fun word => (same word).trans (and_iff_right holds)]
  · rw [if_neg holds, matchingBehind]
    simp only [same, holds, false_and, decide_false, List.filter_false]
    rfl

/-- **The solutions are the leaves that match the query**, each once and in depth-first order. -/
theorem solutions_eq_matching (flat : ∀ id token, accepts id token = true → token.arity = 0)
    (query : EncodedFormula) : ∀ {opened : Nat} {node : TmpIndexNode} {solved : Solved},
    WellFormed opened node → Closes EncodedToken.queryArity opened query →
    (∀ id word, solved.bound id = some word → Closes EncodedToken.arity 1 word) →
    solutions accepts solved query node = leafNodes (matching accepts solved.bound query node) := by
  induction query with
  | nil =>
    intro opened node solved shape closes complete
    cases opened with
    | succ opened => exact (not_closes_nil closes).elim
    | zero =>
      obtain ⟨leaf, rfl⟩ := shape.eq_leafNode
      rw [solutions, matching, leaves_leafNode, List.filter_cons_of_pos]
      · rfl
      · exact decide_eq_true (matches_nil.mpr rfl)
  | cons token rest ih =>
    intro opened node solved shape closes complete
    cases opened with
    | zero => exact closes.elim
    | succ opened =>
      rw [closes_cons] at closes
      let below := fun next => leafNodes (matching accepts solved.bound rest next)
      cases role : token.role with
      | constant =>
        rw [EncodedToken.queryArity, patternArity_constant role] at closes
        have each : ∀ child ∈ node.children,
            leafNodes (matchingBehind accepts solved.bound (child.1 :: ·) (token :: rest) child.2) =
              if child.1 = token then leafNodes (matching accepts solved.bound rest child.2) else [] :=
          fun child _ => matchingBehind_ite child.2 fun word => matches_constant role
        rw [leafNodes_matching_children _ _ shape, List.flatMap_congr each]
        simp only [solutions, role]
        cases found : node.child token with
        | none =>
          refine (flatMap_key_absent (fun next member => ?_) below).symm
          rw [shape.child_of_mem member] at found
          cases found
        | some next =>
          have member := (VectorMap.find_eq_some_iff shape.sorted).mp found
          exact (ih (shape.child found) closes complete).trans
            (flatMap_key shape.sorted.nodup member below).symm
      | named id =>
        rw [EncodedToken.queryArity, patternArity_hole (by rw [role]; simp), Nat.add_zero] at closes
        rw [leafNodes_matching_terms _ _ shape]
        simp only [solutions, role]
        cases solvedId : solved.bound id with
        | none =>
          refine List.flatMap_congr fun term member => ?_
          have closesTerm := ((mem_terms_iff shape).mp member).1
          have boundEq := bound_append_named solvedId term.1
          rw [ih (wellFormed_of_mem_terms shape member) closes fun other word found => ?_, boundEq]
          · rw [matchingBehind_eq term.2 fun word => matches_named_fresh role solvedId closesTerm]
          · rw [boundEq] at found
            by_cases same : other = id
            · rw [same, Function.update_self] at found
              exact Option.some.inj found ▸ closesTerm
            · rw [Function.update_of_ne same] at found
              exact complete other word found
        | some value =>
          have each : ∀ term ∈ node.terms 1,
              leafNodes (matchingBehind accepts solved.bound (term.1 ++ ·) (token :: rest) term.2) =
                if term.1 = value then leafNodes (matching accepts solved.bound rest term.2) else [] :=
            fun term member => matchingBehind_ite term.2 fun word =>
              matches_named_bound role solvedId ((mem_terms_iff shape).mp member).1
          rw [List.flatMap_congr each]
          simp only
          cases reached : walk value node with
          | none =>
            refine (flatMap_key_absent (fun next member => ?_) below).symm
            rw [((mem_terms_iff shape).mp member).2] at reached
            cases reached
          | some next =>
            have member := (mem_terms_iff shape).mpr ⟨complete id value solvedId, reached⟩
            exact (ih (wellFormed_of_mem_terms shape member) closes complete).trans
              (flatMap_key (terms_nodup shape) member below).symm
      | anonymous =>
        rw [EncodedToken.queryArity, patternArity_hole (by rw [role]; simp), Nat.add_zero] at closes
        rw [leafNodes_matching_terms _ _ shape]
        simp only [solutions, role]
        refine List.flatMap_congr fun term member => ?_
        have boundEq : Solved.bound (solved ++ [(.anonymous, term.1)]) = solved.bound :=
          bound_append_other (by simp) term.1
        rw [ih (wellFormed_of_mem_terms shape member) closes (by rw [boundEq]; exact complete), boundEq]
        rw [matchingBehind_eq term.2 fun word =>
          matches_anonymous role ((mem_terms_iff shape).mp member).1]
      | restricted id =>
        rw [EncodedToken.queryArity, patternArity_hole (by rw [role]; simp), Nat.add_zero] at closes
        rw [leafNodes_matching_children _ _ shape]
        simp only [solutions, role]
        rw [flatMap_filter]
        refine List.flatMap_congr fun child member => ?_
        have boundEq : Solved.bound (solved ++ [(.restricted id, [child.1])]) = solved.bound :=
          bound_append_other (by simp) [child.1]
        rw [matchingBehind_ite child.2 fun word => matches_restricted role]
        by_cases accepted : accepts id child.1 = true
        · have closed := flat id child.1 accepted
          have shapeChild : WellFormed opened child.2 := by
            have below := shape.entry member
            rwa [closed, Nat.add_zero] at below
          rw [if_pos accepted, if_pos ⟨closed, accepted⟩,
            ih shapeChild closes (by rw [boundEq]; exact complete), boundEq]
        · rw [if_neg accepted, if_neg fun both => accepted both.2]

end Matching

/-! ### What the constructor computes -/

namespace SearchContext

/-- A token that opens a new entry: a range, an anonymous variable or a variable not seen before. -/
def opens (seen : List TokenRole) (token : EncodedToken) : Prop :=
  match token.role with
  | .constant => False
  | .named id => .named id ∉ seen
  | _ => True

instance (seen : List TokenRole) (token : EncodedToken) : Decidable (opens seen token) := by
  unfold opens
  split <;> infer_instance

/-- The entries after one more token. -/
def extend (seen : List TokenRole) (token : EncodedToken) : List TokenRole :=
  if opens seen token then seen ++ [token.role] else seen

/-- The entries after a query, in the order of their first occurrences. -/
def specials (seen : List TokenRole) (query : EncodedFormula) : List TokenRole := query.foldl extend seen

/-- The triple of a token; a variable seen before has the number of its entry, else the next one. -/
def triple (seen : List TokenRole) (token : EncodedToken) : NodeTriple :=
  match token.role with
  | .constant => ⟨.const, token.id, token.arity⟩
  | .restricted _ => ⟨.range, token.id, seen.length⟩
  | .anonymous => ⟨.qvar, token.id, seen.length⟩
  | .named id => ⟨.qvar, token.id, seen.idxOf (.named id)⟩

/-- The triples of a query. -/
def triples : List TokenRole → EncodedFormula → List NodeTriple
  | _, [] => []
  | seen, token :: rest => triple seen token :: triples (extend seen token) rest

/-- The places behind the tokens that open an entry. -/
def points : List TokenRole → Nat → EncodedFormula → List Nat
  | _, _, [] => []
  | seen, count, token :: rest =>
    (if opens seen token then [count + 1] else []) ++ points (extend seen token) (count + 1) rest

/-- The map of the constructor and its count, for the entries seen so far. -/
structure Agrees (classified : Classified) (seen : List TokenRole) : Prop where
  count : classified.specialCount = seen.length
  table : ∀ id, classified.indexedQvars.lookup id =
    if .named id ∈ seen then some (seen.idxOf (.named id)) else none

theorem Agrees.append_other {classified : Classified} {seen : List TokenRole}
    (agrees : Agrees classified seen) {role : TokenRole} (unnamed : ∀ id, role ≠ .named id)
    (type : TokType) (meaningId : Nat) :
    Agrees (classified.addSpecial type meaningId) (seen ++ [role]) := by
  refine ⟨by simp [Classified.addSpecial, agrees.count], fun id => ?_⟩
  have same : (.named id ∈ seen ++ [role]) ↔ .named id ∈ seen := by
    rw [List.mem_append, List.mem_singleton]
    exact or_iff_left fun equal => unnamed id equal.symm
  rw [show (classified.addSpecial type meaningId).indexedQvars = classified.indexedQvars from rfl,
    agrees.table]
  by_cases member : .named id ∈ seen
  · rw [if_pos member, if_pos (same.mpr member), List.idxOf_append_of_mem member]
  · rw [if_neg member, if_neg fun inside => member (same.mp inside)]

/-- **One token of the constructor's loop.** -/
theorem addToken_spec {classified : Classified} {seen : List TokenRole}
    (agrees : Agrees classified seen) (token : EncodedToken) :
    Agrees (classified.addToken token) (extend seen token) ∧
      (classified.addToken token).expr = classified.expr ++ [triple seen token] ∧
      (classified.addToken token).tokenCount = classified.tokenCount + 1 ∧
      (classified.addToken token).backtrackPoints = classified.backtrackPoints ++
        if opens seen token then [classified.tokenCount + 1] else [] := by
  unfold Classified.addToken extend opens triple EncodedToken.role
  by_cases isVar : token.isVar = true
  · by_cases isAnon : token.isAnonVar = true
    · simp only [isVar, isAnon, if_true]
      refine ⟨agrees.append_other (by simp) _ _, ?_, rfl, rfl⟩
      simp [Classified.addSpecial, agrees.count]
    · simp only [isVar, isAnon, if_true, if_false, Bool.false_eq_true]
      rw [agrees.table]
      by_cases member : .named token.id ∈ seen
      · simp only [member, if_true, not_true_eq_false, if_false]
        exact ⟨⟨agrees.count, agrees.table⟩, rfl, rfl, by simp [Classified.addPlain]⟩
      · simp only [member, if_false, not_false_eq_true, if_true]
        refine ⟨⟨by simp [Classified.addSpecial, agrees.count], fun id => ?_⟩, ?_, rfl, rfl⟩
        · rw [List.lookup_append, agrees.table]
          by_cases same : id = token.id
          · subst same
            simp [member, agrees.count, List.idxOf_append_of_notMem member]
          · have different : (id == token.id) = false := by simpa using same
            by_cases old : .named id ∈ seen
            · simp [old, List.idxOf_append_of_mem old]
            · simp [old, same, List.lookup, different]
        · simp [Classified.addSpecial, agrees.count, List.idxOf_of_notMem member]
  · by_cases isRange : token.isRange = true
    · simp only [isVar, isRange, if_true, if_false, Bool.false_eq_true]
      refine ⟨agrees.append_other (by simp) _ _, ?_, rfl, rfl⟩
      simp [Classified.addSpecial, agrees.count]
    · simp only [isVar, isRange, if_false, Bool.false_eq_true]
      exact ⟨⟨agrees.count, agrees.table⟩, rfl, rfl, by simp [Classified.addPlain]⟩

/-- The constructor's loop over the rest of a query. -/
theorem foldl_addToken_spec (query : EncodedFormula) : ∀ {classified : Classified}
    {seen : List TokenRole}, Agrees classified seen →
    (query.foldl Classified.addToken classified).specialCount = (specials seen query).length ∧
      (query.foldl Classified.addToken classified).expr = classified.expr ++ triples seen query ∧
      (query.foldl Classified.addToken classified).backtrackPoints =
        classified.backtrackPoints ++ points seen classified.tokenCount query := by
  induction query with
  | nil =>
    intro classified seen agrees
    exact ⟨agrees.count, (List.append_nil _).symm, (List.append_nil _).symm⟩
  | cons token rest ih =>
    intro classified seen agrees
    obtain ⟨agrees', expr, count, points'⟩ := addToken_spec agrees token
    obtain ⟨specials', triples', rest'⟩ := ih agrees'
    refine ⟨specials', ?_, ?_⟩
    · rw [List.foldl_cons, triples', expr, triples, List.append_assoc, List.singleton_append]
    · rw [List.foldl_cons, rest', points', count, points, List.append_assoc]

variable {D : Doubles}

/-- **The constructor** numbers the variables and ranges in the order of their first occurrences. -/
theorem new_spec (query : EncodedFormula) (options : QueryOptions)
    (rangeBounds : List (Nat × D.Carrier × D.Carrier)) (meaningDict : Option MeaningDictionary) :
    (new query options rangeBounds meaningDict).mSpecialCount = (specials [] query).length ∧
      (new query options rangeBounds meaningDict).expr = triples [] query ∧
      (new query options rangeBounds meaningDict).backtrackPoints = points [] 0 query := by
  have start : Agrees ⟨[], 0, 0, [], []⟩ [] := ⟨rfl, fun id => by simp⟩
  exact foldl_addToken_spec query start

theorem triples_append (front back : EncodedFormula) (seen : List TokenRole) :
    triples seen (front ++ back) = triples seen front ++ triples (specials seen front) back := by
  induction front generalizing seen with
  | nil => rfl
  | cons token rest ih =>
    rw [List.cons_append, triples, triples, ih]
    rfl

theorem length_triples (query : EncodedFormula) (seen : List TokenRole) :
    (triples seen query).length = query.length := by
  induction query generalizing seen with
  | nil => rfl
  | cons token rest ih => rw [triples, List.length_cons, List.length_cons, ih]

theorem points_append (front back : EncodedFormula) (seen : List TokenRole) (count : Nat) :
    points seen count (front ++ back) =
      points seen count front ++ points (specials seen front) (count + front.length) back := by
  induction front generalizing seen count with
  | nil => simp [points, specials]
  | cons token rest ih =>
    rw [List.cons_append, points, points, ih, List.append_assoc, List.length_cons]
    congr 3
    omega

theorem specials_append (front back : EncodedFormula) (seen : List TokenRole) :
    specials seen (front ++ back) = specials (specials seen front) back := List.foldl_append

/-- The entries only grow. -/
theorem specials_extends (query : EncodedFormula) (seen : List TokenRole) :
    ∃ more, specials seen query = seen ++ more := by
  induction query generalizing seen with
  | nil => exact ⟨[], (List.append_nil _).symm⟩
  | cons token rest ih =>
    obtain ⟨more, grown⟩ := ih (extend seen token)
    by_cases new : opens seen token
    · refine ⟨token.role :: more, ?_⟩
      rw [specials, List.foldl_cons, ← specials, grown, extend, if_pos new, List.append_assoc,
        List.singleton_append]
    · refine ⟨more, ?_⟩
      rw [specials, List.foldl_cons, ← specials, grown, extend, if_neg new]

/-- There is a point for every entry. -/
theorem length_points (query : EncodedFormula) (seen : List TokenRole) (count : Nat) :
    seen.length + (points seen count query).length = (specials seen query).length := by
  induction query generalizing seen count with
  | nil => rfl
  | cons token rest ih =>
    rw [points, specials, List.foldl_cons, ← specials, ← ih (extend seen token) (count + 1), extend]
    by_cases new : opens seen token
    · simp [new]
      omega
    · simp [new]

end SearchContext

end MathWebSearch
