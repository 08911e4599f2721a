/-
**What the engine's hits are.**

* `mem_hits` — every word the engine explores is a leaf of the index and an instance of the query.
* `firstTerms_eq` — the words a variable grows along are copies of one word; there is one copy where every
  node on the way has one child.
* `count_hits` — an instance of the query is explored exactly once when every variable, where it is met for the
  first time, grows along nodes with one child (`Straight`).
-/

import MathWebSearch.Query.EngineSpec

namespace MathWebSearch

open PrefixCode PatternWord TmpIndexNode

namespace TmpIndexNode

/-- Every node a word goes through, but for the last, has one child. -/
def LoneAlong (node : TmpIndexNode) (word : EncodedFormula) : Prop :=
  ∀ front back, word = front ++ back → back ≠ [] → ∃ next, walk front node = some next ∧ next.children.length = 1

theorem loneAlong_nil (node : TmpIndexNode) : LoneAlong node [] := fun _ _ same nonempty =>
  absurd (List.append_eq_nil_iff.mp same.symm).2 nonempty

theorem loneAlong_cons {node next : TmpIndexNode} {token : EncodedToken} {rest : EncodedFormula}
    (found : node.child token = some next) :
    LoneAlong node (token :: rest) ↔ node.children.length = 1 ∧ LoneAlong next rest := by
  constructor
  · intro lone
    refine ⟨?_, fun front back same nonempty => ?_⟩
    · obtain ⟨_, here, one⟩ := lone [] (token :: rest) rfl (List.cons_ne_nil _ _)
      obtain rfl := Option.some.inj here
      exact one
    · obtain ⟨last, reached, one⟩ := lone (token :: front) back (by rw [same, List.cons_append]) nonempty
      rw [walk, found] at reached
      exact ⟨last, reached, one⟩
  · rintro ⟨one, lone⟩ front back same nonempty
    cases front with
    | nil => exact ⟨node, rfl, one⟩
    | cons first front =>
      obtain ⟨rfl, behind⟩ := List.cons.inj same
      obtain ⟨last, reached, one⟩ := lone front back behind nonempty
      exact ⟨last, by rw [walk, found]; exact reached, one⟩

/-- **The words a variable grows along** are copies of one term. -/
theorem firstTerms_eq {base : Nat} {node : TmpIndexNode} : ∀ {opened : Nat}, WellFormed (base + opened) node →
    ∃ count term, node.firstTerms opened = List.replicate count term ∧ term ∈ node.terms opened ∧
      (count = 1 ↔ LoneAlong node term.1) := by
  induction node with
  | mk leaf children ih =>
    intro opened shape
    cases opened with
    | zero =>
      rw [firstTerms_zero, terms_zero]
      exact ⟨1, _, rfl, List.mem_singleton_self _, fun _ => loneAlong_nil _, fun _ => rfl⟩
    | succ opened =>
      obtain ⟨⟨token, next⟩, rest, entries⟩ := List.exists_cons_of_ne_nil shape.children_ne_nil
      have member : (token, next) ∈ (mk leaf children).children := by rw [entries]; exact List.mem_cons_self
      obtain ⟨count, term, copies, among, single⟩ := ih (token, next) member (shape.entryAbove member)
      refine ⟨(rest.length + 1) * count, (token :: term.1, term.2), ?_, ?_, ?_⟩
      · rw [firstTerms_succ entries, copies, List.map_replicate, List.flatten_replicate_replicate]
      · rw [terms_succ, termsOf_eq_flatMap]
        exact List.mem_flatMap.mpr ⟨(token, next), member, List.mem_map.mpr ⟨term, among, rfl⟩⟩
      · rw [loneAlong_cons (shape.child_of_mem member), entries, List.length_cons, mul_eq_one, single]

/-- Where every node has one child, there is one way to go. -/
theorem LoneAlong.unique {base : Nat} {word : EncodedFormula} : ∀ {opened : Nat} {node : TmpIndexNode}
    {term : EncodedFormula × TmpIndexNode}, WellFormed (base + opened) node →
    Closes EncodedToken.arity opened word → (walk word node).isSome → LoneAlong node word →
    term ∈ node.terms opened → term.1 = word := by
  induction word with
  | nil =>
    intro opened node term shape closes _ _ among
    cases opened with
    | succ opened => exact (not_closes_nil closes).elim
    | zero =>
      rw [terms_zero, List.mem_singleton] at among
      rw [among]
  | cons token rest ih =>
    intro opened node term shape closes reached lone among
    cases opened with
    | zero => exact closes.elim
    | succ opened =>
      rw [walk] at reached
      obtain ⟨next, found⟩ : ∃ next, node.child token = some next :=
        Option.isSome_iff_exists.mp (Option.isSome_of_isSome_bind reached)
      rw [found] at reached
      obtain ⟨one, lone⟩ := (loneAlong_cons found).mp lone
      have member := (VectorMap.find_eq_some_iff shape.sorted).mp found
      rw [terms_succ, termsOf_eq_flatMap] at among
      obtain ⟨entry, child, inside⟩ := List.mem_flatMap.mp among
      obtain ⟨below, stored, rfl⟩ := List.mem_map.mp inside
      obtain ⟨only, alone⟩ := List.length_eq_one_iff.mp one
      have same : entry = (token, next) := by
        rw [alone, List.mem_singleton] at child member
        exact child.trans member.symm
      subst same
      rw [ih (shape.entryAbove member) closes reached lone stored]

end TmpIndexNode

namespace Engine

/-- **The word is the query under a substitution** of a complete term for each variable. -/
abbrev IsInstance (substitution : Nat → EncodedFormula) (query word : EncodedFormula) : Prop :=
  Instance EncodedToken.arity role (fun _ _ => false) substitution query word

/-- The same, with the variables that are already solved. -/
abbrev MatchesQuery (env : Env) (query word : EncodedFormula) : Prop :=
  Matches EncodedToken.arity role (fun _ _ => false) env query word

/-- A term that has been walked leads to where one subterm less is open. -/
theorem wellFormed_walk {opened : Nat} {node next : TmpIndexNode} {word : EncodedFormula}
    (shape : WellFormed (opened + 1) node) (closes : Closes EncodedToken.arity 1 word)
    (reached : walk word node = some next) : WellFormed opened next :=
  wellFormed_of_mem_terms shape ((mem_terms_iff shape).mpr ⟨closes, reached⟩)

theorem leafAt_append (front back : EncodedFormula) (node : TmpIndexNode) :
    leafAt (front ++ back) node = (walk front node).bind (leafAt back) := by
  rw [leafAt_eq_walk, walk_append, Option.bind_assoc]
  congr 1
  funext next
  exact (leafAt_eq_walk back next).symm

/-- **Every hit is a leaf, and an instance of the query.** -/
theorem mem_hits (query : EncodedFormula) : ∀ {env : Env} {opened : Nat} {node : TmpIndexNode}
    {word : EncodedFormula}, WellFormed opened node → Closes queryArity opened query →
    (∀ id term, env id = some term → Closes EncodedToken.arity 1 term) → word ∈ hits env query node →
    MatchesQuery env query word ∧ (leafAt word node).isSome := by
  induction query with
  | nil =>
    intro env opened node word shape closes _ member
    cases opened with
    | succ opened => exact (not_closes_nil closes).elim
    | zero =>
      rw [hits, List.mem_singleton] at member
      subst member
      obtain ⟨leaf, rfl⟩ := shape.eq_leafNode
      exact ⟨matches_nil.mpr rfl, rfl⟩
  | cons token rest ih =>
    intro env opened node word shape closes terms member
    cases opened with
    | zero => exact closes.elim
    | succ opened =>
      rw [closes_cons] at closes
      cases isVar : token.isVar with
      | false =>
        rw [queryArity_of_constant isVar] at closes
        rw [hits_constant _ isVar] at member
        obtain ⟨below, inside, rfl⟩ := List.mem_map.mp member
        cases found : node.child token with
        | none => rw [found] at inside; cases inside
        | some next =>
          rw [found] at inside
          obtain ⟨matching, isLeaf⟩ := ih (shape.child found) closes terms inside
          exact ⟨(matches_constant (role_of_constant isVar)).mpr ⟨rfl, matching⟩,
            by rw [leafAt, found]; exact isLeaf⟩
      | true =>
        rw [queryArity_of_var isVar, Nat.add_zero] at closes
        rw [hits, if_pos isVar] at member
        cases bound : env token.id with
        | some term =>
          rw [bound] at member
          obtain ⟨below, inside, rfl⟩ := List.mem_map.mp member
          cases reached : walk term node with
          | none => rw [reached] at inside; cases inside
          | some next =>
            rw [reached] at inside
            have complete := terms _ _ bound
            obtain ⟨matching, isLeaf⟩ := ih (wellFormed_walk shape complete reached) closes terms inside
            exact ⟨(matches_named_bound (role_of_var isVar) bound complete).mpr ⟨rfl, matching⟩,
              by rw [leafAt_append, reached]; exact isLeaf⟩
        | none =>
          rw [bound] at member
          obtain ⟨⟨term, next⟩, among, inside⟩ := List.mem_flatMap.mp member
          obtain ⟨below, hit, rfl⟩ := List.mem_map.mp inside
          obtain ⟨count, first, copies, stored, _⟩ := firstTerms_eq shape
          rw [copies] at among
          obtain rfl := List.eq_of_mem_replicate among
          obtain ⟨complete, reached⟩ := (mem_terms_iff shape).mp stored
          have termsLater : ∀ id other, Function.update env token.id (some term) id = some other →
              Closes EncodedToken.arity 1 other := by
            intro id other found
            by_cases same : id = token.id
            · subst same
              rw [Function.update_self] at found
              obtain rfl := Option.some.inj found
              exact complete
            · rw [Function.update_of_ne same] at found
              exact terms id other found
          obtain ⟨matching, isLeaf⟩ := ih (wellFormed_of_mem_terms shape stored) closes termsLater hit
          exact ⟨(matches_named_fresh (role_of_var isVar) bound complete).mpr matching,
            by rw [leafAt_append, reached]; exact isLeaf⟩

/-! ### How often a word is explored -/

/-- A query with its variables replaced. -/
def spell (substitution : Nat → EncodedFormula) (query : EncodedFormula) : EncodedFormula :=
  query.flatMap fun token => if token.isVar then substitution token.id else [token]

/-- **Every variable grows straight**: where it is met for the first time, the nodes along the term it stands for
have one child each. -/
def Straight (env : Env) (substitution : Nat → EncodedFormula) (query : EncodedFormula) (node : TmpIndexNode) :
    Prop :=
  ∀ front token rest, query = front ++ token :: rest → token.isVar = true → env token.id = none →
    (∀ other ∈ front, other.isVar = true → other.id ≠ token.id) →
    ∃ next, walk (spell substitution front) node = some next ∧ LoneAlong next (substitution token.id)

theorem straight_nil (env : Env) (substitution : Nat → EncodedFormula) (node : TmpIndexNode) :
    Straight env substitution [] node := by
  intro front token rest same
  cases front <;> cases same

theorem straight_constant {env : Env} {substitution : Nat → EncodedFormula} {token : EncodedToken}
    {rest : EncodedFormula} {node next : TmpIndexNode} (constant : token.isVar = false)
    (found : node.child token = some next) :
    Straight env substitution (token :: rest) node ↔ Straight env substitution rest next := by
  have walked : ∀ front, walk (spell substitution (token :: front)) node = walk (spell substitution front) next := by
    intro front
    rw [spell, List.flatMap_cons, constant]
    show walk (token :: spell substitution front) node = _
    rw [walk, found]
    rfl
  constructor
  · intro straight front other back same isVar free fresh
    have whole := straight (token :: front) other back (by rw [same, List.cons_append]) isVar free ?_
    · rwa [walked] at whole
    · intro earlier member earlierVar
      rcases List.mem_cons.mp member with rfl | behind
      · rw [constant] at earlierVar
        cases earlierVar
      · exact fresh earlier behind earlierVar
  · intro straight front other back same isVar free fresh
    cases front with
    | nil =>
      obtain ⟨rfl, _⟩ := List.cons.inj same
      rw [constant] at isVar
      cases isVar
    | cons first front =>
      obtain ⟨rfl, behind⟩ := List.cons.inj same
      rw [walked]
      exact straight front other back behind isVar free fun earlier member =>
        fresh earlier (List.mem_cons_of_mem _ member)

theorem straight_var {env : Env} {substitution : Nat → EncodedFormula} {token : EncodedToken}
    {rest : EncodedFormula} {node next : TmpIndexNode} (isVar : token.isVar = true)
    (reached : walk (substitution token.id) node = some next) :
    Straight env substitution (token :: rest) node ↔
      (env token.id = none → LoneAlong node (substitution token.id)) ∧
        Straight (Function.update env token.id (some (substitution token.id))) substitution rest next := by
  have walked : ∀ front, walk (spell substitution (token :: front)) node = walk (spell substitution front) next := by
    intro front
    rw [spell, List.flatMap_cons, isVar, if_pos rfl, walk_append, reached]
    rfl
  constructor
  · intro straight
    refine ⟨fun free => ?_, fun front other back same otherVar free fresh => ?_⟩
    · obtain ⟨_, here, lone⟩ := straight [] token rest rfl isVar free nofun
      obtain rfl := Option.some.inj here
      exact lone
    · have different : other.id ≠ token.id := by
        intro equal
        rw [equal, Function.update_self] at free
        cases free
      rw [Function.update_of_ne different] at free
      have whole := straight (token :: front) other back (by rw [same, List.cons_append]) otherVar free ?_
      · rwa [walked] at whole
      · intro earlier member earlierVar
        rcases List.mem_cons.mp member with rfl | behind
        · exact different.symm
        · exact fresh earlier behind earlierVar
  · rintro ⟨lone, straight⟩ front other back same otherVar free fresh
    cases front with
    | nil =>
      obtain ⟨rfl, _⟩ := List.cons.inj same
      exact ⟨node, rfl, lone free⟩
    | cons first front =>
      obtain ⟨rfl, behind⟩ := List.cons.inj same
      have different : token.id ≠ other.id := fresh token List.mem_cons_self isVar
      rw [walked]
      refine straight front other back behind otherVar ?_ fun earlier member =>
        fresh earlier (List.mem_cons_of_mem _ member)
      rw [Function.update_of_ne different.symm]
      exact free

theorem count_map_append (front word : EncodedFormula) (words : List EncodedFormula) :
    (words.map (front ++ ·)).count (front ++ word) = words.count word :=
  List.count_map_of_injective words _ (List.append_right_injective front) word

/-- How often a variable's term and what follows it are explored. -/
theorem count_grown {env : Env} {id opened : Nat} {rest term below : EncodedFormula} {node next : TmpIndexNode}
    (shape : WellFormed (opened + 1) node) (complete : Closes EncodedToken.arity 1 term)
    (reached : walk term node = some next) :
    ((node.firstTerms 1).flatMap fun first =>
        (hits (Function.update env id (some first.1)) rest first.2).map (first.1 ++ ·)).count (term ++ below) = 1 ↔
      LoneAlong node term ∧ (hits (Function.update env id (some term)) rest next).count below = 1 := by
  obtain ⟨count, first, copies, stored, single⟩ := firstTerms_eq shape
  obtain ⟨completeFirst, reachedFirst⟩ := (mem_terms_iff shape).mp stored
  rw [copies, List.flatMap_replicate, List.count_flatten, List.map_replicate, List.sum_replicate, smul_eq_mul]
  by_cases same : first.1 = term
  · subst same
    obtain rfl := Option.some.inj (reachedFirst.symm.trans reached)
    rw [count_map_append, mul_eq_one, single]
  · have absent : term ++ below ∉
        (hits (Function.update env id (some first.1)) rest first.2).map (first.1 ++ ·) := by
      intro member
      obtain ⟨other, _, equal⟩ := List.mem_map.mp member
      exact same (completeFirst.cancel complete equal).1
    rw [List.count_eq_zero_of_not_mem absent, mul_zero]
    refine ⟨fun wrong => absurd wrong (by decide), fun ⟨lone, _⟩ => absurd ?_ same⟩
    exact lone.unique shape complete (by rw [reached]; rfl) stored

/-- **An instance of the query is explored exactly once when every variable grows straight.** -/
theorem count_hits {substitution : Nat → EncodedFormula} (query : EncodedFormula) : ∀ {env : Env} {opened : Nat}
    {node : TmpIndexNode} {word : EncodedFormula}, WellFormed opened node → Closes queryArity opened query →
    (∀ id term, env id = some term → substitution id = term) → IsInstance substitution query word →
    (leafAt word node).isSome → ((hits env query node).count word = 1 ↔ Straight env substitution query node) := by
  induction query with
  | nil =>
    intro env opened node word _ _ _ inst _
    cases inst
    exact ⟨fun _ => straight_nil _ _ _, fun _ => rfl⟩
  | cons token rest ih =>
    intro env opened node word shape closes agrees inst isLeaf
    cases opened with
    | zero => exact closes.elim
    | succ opened =>
      rw [closes_cons] at closes
      cases isVar : token.isVar with
      | false =>
        rw [queryArity_of_constant isVar] at closes
        have role := role_of_constant isVar
        cases inst with
        | named other => rw [role] at other; cases other
        | anonymous other => rw [role] at other; cases other
        | restricted other => rw [role] at other; cases other
        | @constant _ _ below _ inst =>
          obtain ⟨next, found⟩ : ∃ next, node.child token = some next :=
            Option.isSome_iff_exists.mp (Option.isSome_of_isSome_bind isLeaf)
          rw [leafAt, found] at isLeaf
          rw [hits_constant _ isVar, found, straight_constant isVar found, ← ih (shape.child found) closes agrees
            inst isLeaf]
          exact Eq.congr_left (count_map_append [token] below _)
      | true =>
        rw [queryArity_of_var isVar, Nat.add_zero] at closes
        have role := role_of_var isVar
        cases inst with
        | constant other => rw [role] at other; cases other
        | anonymous other => rw [role] at other; cases other
        | restricted other => rw [role] at other; cases other
        | @named _ name _ below other complete inst =>
          obtain rfl : token.id = name := Role.named.inj (role.symm.trans other)
          rw [leafAt_append] at isLeaf
          obtain ⟨next, reached⟩ : ∃ next, walk (substitution token.id) node = some next :=
            Option.isSome_iff_exists.mp (Option.isSome_of_isSome_bind isLeaf)
          rw [reached] at isLeaf
          have agreesLater : ∀ id term, Function.update env token.id (some (substitution token.id)) id = some term →
              substitution id = term := by
            intro id term found
            by_cases same : id = token.id
            · subst same
              rw [Function.update_self] at found
              exact Option.some.inj found
            · rw [Function.update_of_ne same] at found
              exact agrees id term found
          have later := ih (wellFormed_walk shape complete reached) closes agreesLater inst isLeaf
          rw [hits, if_pos isVar, straight_var isVar reached, ← later]
          cases bound : env token.id with
          | some term =>
            obtain rfl := agrees _ _ bound
            have same : Function.update env token.id (some (substitution token.id)) = env := by
              rw [← bound, Function.update_eq_self]
            simp only [reached, Option.map_some, Option.getD_some, same]
            rw [count_map_append]
            exact ⟨fun once => ⟨(fun other => by cases other), once⟩, fun both => both.2⟩
          | none =>
            show (List.flatMap _ _).count _ = 1 ↔ _
            rw [count_grown shape complete reached]
            exact ⟨fun both => ⟨fun _ => both.1, both.2⟩, fun both => ⟨both.1 rfl, both.2⟩⟩

end Engine

end MathWebSearch
