/-
**The table of solved variables and ranges** (`QvarCtxt` and `RangeCtxt` of `SearchContext.cpp`, on a
`TmpIndex`).

* `Offers` — a solved variable or range, with what `nextSol` will still return, one solution after the
  other.
* `Ready` — the invariant of `bkTable`: the entries up to `lastSolved` are solved with the words the
  walk has used for them, the others are as good as new.
* `solve_qvar`, `solve_range` — solving a fresh entry at a node makes it offer the terms below the node,
  or the children the range accepts.

Everything is over `strictAccessor`: no entry ever asks a leaf for its children.
-/

import MathWebSearch.Query.SearchSpec

namespace MathWebSearch

open PrefixCode PatternWord TmpIndexNode

namespace SearchContext

variable {D : Doubles}

/-! ### The table -/

section Table

variable (context : SearchContext D) (index : TmpIndex)

/-- An entry of `bkTable` over a `TmpIndex`. -/
abbrev Entry (D : Doubles) := BacktrackCtxt D TmpIndexNode TmpIterator

/-- The entry `setupTable` makes. -/
def newEntry : TokenRole → Option (Entry D)
  | .restricted id => (context.rangeBounds.lookup id).map fun limits => .range false limits none none
  | _ => some (.qvar false .unset)

/-- An entry that is not solved: the iterator of a variable is back at its start, the bounds of a range
are the given ones. -/
def Fresh : TokenRole → Entry D → Prop
  | .restricted id, .range _ bounds _ _ => context.rangeBounds.lookup id = some bounds
  | .named _, .qvar isSolved iterator => isSolved = false ∧ iterator.backtrackIterators = []
  | .anonymous, .qvar isSolved iterator => isSolved = false ∧ iterator.backtrackIterators = []
  | _, _ => False

/-- The path of an iterator that stands at the end of a word. -/
def Spells (word : EncodedFormula) (iterator : IndexIterator TmpIndexNode TmpIterator) : Prop :=
  pathTokens iterator.backtrackIterators = word ∧ ∀ elem ∈ iterator.backtrackIterators, elem ≠ []

/-- An entry that is solved; the path of a variable's iterator is the word it stands for. -/
def SolvedAs (word : EncodedFormula) : TokenRole → Entry D → Prop
  | .restricted _, .range _ _ _ _ => True
  | .named _, .qvar isSolved iterator => isSolved = true ∧ Spells word iterator
  | .anonymous, .qvar isSolved iterator => isSolved = true ∧ Spells word iterator
  | _, _ => False

/-- **A solved entry and what it has still to offer**: every further solution of `nextSol` with the
word it stands for, until the entry is not solved any more. -/
inductive Offers (role : TokenRole) : EncodedFormula → Entry D → List (EncodedFormula × TmpIndexNode) → Prop
  | last {word : EncodedFormula} {entry entry' : Entry D} : SolvedAs word role entry →
      (∃ enough, ∀ fuel, enough ≤ fuel →
        entry.nextSol strictAccessor index context.decoder fuel = some (entry', none)) →
      Fresh context role entry' → Offers role word entry []
  | more {word word' : EncodedFormula} {entry entry' : Entry D} {node : TmpIndexNode}
      {rest : List (EncodedFormula × TmpIndexNode)} : SolvedAs word role entry →
      (∃ enough, ∀ fuel, enough ≤ fuel →
        entry.nextSol strictAccessor index context.decoder fuel = some (entry', some node)) →
      Offers role word' entry' rest → Offers role word entry ((word', node) :: rest)

theorem Offers.solvedAs {role : TokenRole} {word : EncodedFormula} {entry : Entry D}
    {rest : List (EncodedFormula × TmpIndexNode)} (offers : Offers context index role word entry rest) :
    SolvedAs word role entry := by
  cases offers with
  | last solved => exact solved
  | more solved => exact solved

/-- What an entry has to be, with the word it stands for when it is solved. -/
def EntryOk (role : TokenRole) (entry : Entry D) : Option EncodedFormula → Prop
  | none => Fresh context role entry
  | some word => SolvedAs word role entry

/-- **The invariant of the table**: the first entries are solved with the words of `solved`, the others
are fresh. -/
structure Ready (roles : List TokenRole) (solved : Solved) (table : List (Entry D)) : Prop where
  length : table.length = roles.length
  entry : ∀ (number : Nat) (role : TokenRole), roles[number]? = some role →
    ∃ entry, table[number]? = some entry ∧ EntryOk context role entry (solved[number]?.map Prod.snd)

/-- The part of the table that a walk behind `count` solved entries leaves alone. -/
def SameFront (count : Nat) (table table' : List (Entry D)) : Prop :=
  ∀ number, number < count → table'[number]? = table[number]?

variable {context}

/-- Writing one entry: the words of the others stay. -/
theorem Ready.set {roles : List TokenRole} {solved solved' : Solved} {table : List (Entry D)}
    (ready : Ready context roles solved table) {number : Nat} {role : TokenRole} {entry : Entry D}
    (atEntry : roles[number]? = some role)
    (others : ∀ other, other ≠ number → solved'[other]? = solved[other]?)
    (ok : EntryOk context role entry (solved'[number]?.map Prod.snd)) :
    Ready context roles solved' (table.set number entry) := by
  refine ⟨by rw [List.length_set, ready.length], fun other role' found => ?_⟩
  by_cases same : other = number
  · subst same
    rw [atEntry] at found
    obtain rfl := Option.some.inj found
    have small := (List.getElem?_eq_some_iff.mp atEntry).1
    exact ⟨entry, List.getElem?_set_self (by rw [ready.length]; exact small), ok⟩
  · rw [List.getElem?_set_ne (fun equal => same equal.symm), others other same]
    exact ready.entry other role' found

theorem getElem?_push_ne (solved : Solved) (item : TokenRole × EncodedFormula) {other : Nat}
    (different : other ≠ solved.length) : (solved ++ [item])[other]? = solved[other]? := by
  rcases Nat.lt_or_ge other solved.length with below | above
  · exact List.getElem?_append_left below
  · rw [List.getElem?_eq_none (by rw [List.length_append, List.length_singleton]; omega),
      List.getElem?_eq_none above]

theorem SameFront.trans {count : Nat} {table table' table'' : List (Entry D)}
    (one : SameFront count table table') (two : SameFront count table' table'') :
    SameFront count table table'' :=
  fun number small => (two number small).trans (one number small)

theorem SameFront.set {count number : Nat} {table table' : List (Entry D)}
    (same : SameFront count table table') (above : count ≤ number) (entry : Entry D) :
    SameFront count table (table'.set number entry) := by
  intro other small
  rw [List.getElem?_set_ne (by omega)]
  exact same other small

end Table

/-! ### What the entries offer -/

section Offering

variable (context : SearchContext D) (index : TmpIndex) {base : Nat}

/-- The role of a variable. -/
def IsVariable (role : TokenRole) : Prop := role = .anonymous ∨ ∃ id, role = .named id

theorem solvedAs_qvar {role : TokenRole} (variable' : IsVariable role) {word : EncodedFormula}
    {iterator : IndexIterator TmpIndexNode TmpIterator} (spells : Spells word iterator) :
    SolvedAs word role (.qvar true iterator : Entry D) := by
  rcases variable' with rfl | ⟨id, rfl⟩
  · exact ⟨rfl, spells⟩
  · exact ⟨rfl, spells⟩

theorem fresh_qvar {role : TokenRole} (variable' : IsVariable role) (arity : Int)
    (root : Option TmpIndexNode) : Fresh context role (.qvar false ⟨[], arity, root⟩ : Entry D) := by
  rcases variable' with rfl | ⟨id, rfl⟩
  · exact ⟨rfl, rfl⟩
  · exact ⟨rfl, rfl⟩

/-- The entry of a variable behind a return of its iterator. -/
theorem offers_qvar {role : TokenRole} (variable' : IsVariable role) (root : Option TmpIndexNode) :
    ∀ (length : Nat) {stack : List TmpIterator} {walk : List WalkItem}, walk.length < length →
      Suspended base stack 0 walk → stack ≠ [] →
      Offers context index role (pathTokens stack) (.qvar true ⟨stack, 0, root⟩ : Entry D) (yields walk) := by
  intro length
  induction length with
  | zero =>
    intro stack walk short
    omega
  | succ length ih =>
    intro stack walk short suspended nonempty
    have spells : Spells (pathTokens stack) ⟨stack, 0, root⟩ := ⟨rfl, suspended.iterators_ne_nil⟩
    have solved : SolvedAs (pathTokens stack) role (.qvar true ⟨stack, 0, root⟩ : Entry D) :=
      solvedAs_qvar variable' spells
    rcases IndexIterator.next_spec index suspended nonempty root with
      ⟨enough, output, computed, stack', token, node, rest, walk', outputIt, outputNode, _, suspended', split⟩ |
      ⟨events, computed, split⟩
    · rw [split, yields_append, yields_map_call, List.nil_append, yields_yield]
      refine .more solved ⟨enough, fun fuel more => ?_⟩ (ih ?_ suspended' (by simp))
      · have now := (IndexIterator.next_mono strictAccessor index).le more computed
        simp only [Nat.cast_zero] at now
        simp [BacktrackCtxt.nextSol, now, outputIt, outputNode]
      · rw [split, List.length_append, List.length_cons] at short
        omega
    · rw [split, yields_map_call]
      refine .last solved ⟨0, fun fuel _ => ?_⟩ (fresh_qvar context variable' 1 root)
      have now := computed fuel
      simp only [Nat.cast_zero] at now
      simp [BacktrackCtxt.nextSol, now]

/-- **Solving a variable** at a node with `base + 1` open subterms: it offers the terms below it. -/
theorem solve_qvar {role : TokenRole} (variable' : IsVariable role) {entry : Entry D}
    (fresh : Fresh context role entry) {node : TmpIndexNode} (shape : WellFormed (base + 1) node) :
    ∃ term rest entry', node.terms 1 = term :: rest ∧
      (∃ enough, ∀ fuel, enough ≤ fuel →
        entry.solve strictAccessor index context.decoder fuel node = some (entry', some term.2)) ∧
      Offers context index role term.1 entry' rest := by
  obtain ⟨isSolved, iterator, rfl, unsolved, atStart⟩ : ∃ isSolved iterator,
      entry = .qvar isSolved iterator ∧ isSolved = false ∧ iterator.backtrackIterators = [] := by
    rcases variable' with rfl | ⟨id, rfl⟩ <;> cases entry with
    | qvar isSolved iterator => exact ⟨isSolved, iterator, rfl, fresh⟩
    | range => exact fresh.elim
  obtain ⟨enough, output, computed, stack, token, last, rest, walk, outputIt, outputNode, _, suspended, split⟩ :=
    IndexIterator.next_start index shape
  have whole := yields_traceBelow node 1 []
  rw [split, yields_append, yields_map_call, List.nil_append, yields_yield] at whole
  simp only [pathTokens_nil, List.nil_append, Prod.mk.eta, List.map_id'] at whole
  refine ⟨_, _, .qvar true output.1, whole.symm, ⟨enough, fun fuel more => ?_⟩, ?_⟩
  · have now := (IndexIterator.next_mono strictAccessor index).le more computed
    have same : iterator.set node = IndexIterator.start node := by
      rw [IndexIterator.set, IndexIterator.start, atStart]
    simp [BacktrackCtxt.solve, same, now, outputNode]
  · rw [outputIt]
    exact offers_qvar context index variable' (some node) _ (Nat.lt_succ_self _) suspended (by simp)

/-- The tokens the range with the given id accepts. -/
def accepts (id : Nat) (token : EncodedToken) : Bool :=
  ((context.rangeBounds.lookup id).bind fun bounds => validSubst D context.decoder bounds token).getD false

/-- The range with the given id has bounds, and can decide about the token. -/
def Decides (id : Nat) (token : EncodedToken) : Prop :=
  ∃ bounds valid, context.rangeBounds.lookup id = some bounds ∧
    validSubst D context.decoder bounds token = some valid

variable {context}

theorem Decides.validSubst_eq {id : Nat} {token : EncodedToken} (decides : Decides context id token)
    {bounds : D.Carrier × D.Carrier} (limits : context.rangeBounds.lookup id = some bounds) :
    validSubst D context.decoder bounds token = some (accepts context id token) := by
  obtain ⟨bounds', valid, limits', decided⟩ := decides
  rw [limits] at limits'
  obtain rfl := Option.some.inj limits'
  rw [accepts, limits, Option.bind_some, decided, Option.getD_some]

/-- A number has arity 0. -/
theorem arity_of_accepts {id : Nat} {token : EncodedToken} (accepted : accepts context id token = true) :
    token.arity = 0 := by
  by_contra inner
  unfold accepts at accepted
  cases limits : context.rangeBounds.lookup id with
  | none => simp [limits] at accepted
  | some bounds => simp [limits, validSubst, isCmmlNumber, inner] at accepted

/-- What is needed of the rest of a children vector that a range looks at. -/
structure Scannable (context : SearchContext D) (id : Nat) (root : TmpIndexNode) (iterator : TmpIterator) :
    Prop where
  decides : ∀ entry ∈ iterator, Decides context id entry.1
  child : ∀ entry ∈ iterator, root.child entry.1 = some entry.2

theorem Scannable.tail {id : Nat} {root : TmpIndexNode} {head : EncodedToken × TmpIndexNode}
    {rest : TmpIterator} (scannable : Scannable context id root (head :: rest)) :
    Scannable context id root rest :=
  ⟨fun entry member => scannable.decides entry (List.mem_cons_of_mem _ member),
    fun entry member => scannable.child entry (List.mem_cons_of_mem _ member)⟩

theorem Scannable.children_ne_nil {id : Nat} {root : TmpIndexNode} {head : EncodedToken × TmpIndexNode}
    {rest : TmpIterator} (scannable : Scannable context id root (head :: rest)) : root.children ≠ [] := by
  intro empty
  have found := scannable.child head List.mem_cons_self
  rw [TmpIndexNode.child, empty] at found
  cases found

/-- **Looking for a child the range accepts**: the first one, or none. -/
theorem scan_spec {id : Nat} {bounds : D.Carrier × D.Carrier}
    (limits : context.rangeBounds.lookup id = some bounds) (root : TmpIndexNode) (iterator : TmpIterator) :
    Scannable context id root iterator → iterator ≠ [] →
    (iterator.filter (fun entry => accepts context id entry.1) = [] ∧
      ∃ last, ∃ enough, ∀ fuel, enough ≤ fuel →
        BacktrackCtxt.scan strictAccessor index context.decoder fuel bounds root iterator =
          some (.range false bounds (some root) (some last), none)) ∨
    ∃ entry rest, iterator.filter (fun entry => accepts context id entry.1) =
        entry :: rest.filter (fun entry => accepts context id entry.1) ∧
      Scannable context id root (entry :: rest) ∧ rest.length < iterator.length ∧
      ∃ enough, ∀ fuel, enough ≤ fuel →
        BacktrackCtxt.scan strictAccessor index context.decoder fuel bounds root iterator =
          some (.range true bounds (some root) (some (entry :: rest)), some entry.2) := by
  induction iterator with
  | nil => intro _ nonempty; exact absurd rfl nonempty
  | cons entry rest ih =>
    intro scannable _
    have valid := (scannable.decides entry List.mem_cons_self).validSubst_eq limits
    by_cases accepted : accepts context id entry.1 = true
    · refine Or.inr ⟨entry, rest, List.filter_cons_of_pos accepted, scannable,
        Nat.lt_succ_self _, 1, fun fuel more => ?_⟩
      obtain ⟨fuel, rfl⟩ := Nat.exists_eq_add_of_le' more
      have exit : BacktrackCtxt.scanStep strictAccessor index context.decoder bounds (entry :: rest) =
          some (.inr (entry :: rest)) := by
        simp [BacktrackCtxt.scanStep, valid, accepted]
      rw [BacktrackCtxt.scan, Fuel.loop_inr exit]
      simp [valid, accepted, scannable.child entry List.mem_cons_self, scannable.children_ne_nil]
    · rw [Bool.not_eq_true] at accepted
      rw [List.filter_cons_of_neg (by simp [accepted])]
      cases rest with
      | nil =>
        refine Or.inl ⟨rfl, [entry], 1, fun fuel more => ?_⟩
        obtain ⟨fuel, rfl⟩ := Nat.exists_eq_add_of_le' more
        have exit : BacktrackCtxt.scanStep strictAccessor index context.decoder bounds [entry] =
            some (.inr [entry]) := by
          simp [BacktrackCtxt.scanStep, valid]
        rw [BacktrackCtxt.scan, Fuel.loop_inr exit]
        simp [valid, accepted]
      | cons second rest =>
        have onward : BacktrackCtxt.scanStep strictAccessor index context.decoder bounds
            (entry :: second :: rest) = some (.inl (second :: rest)) := by
          simp [BacktrackCtxt.scanStep, valid, accepted]
        have shift : ∀ fuel, BacktrackCtxt.scan strictAccessor index context.decoder (fuel + 1) bounds root
            (entry :: second :: rest) =
              BacktrackCtxt.scan strictAccessor index context.decoder fuel bounds root (second :: rest) :=
          fun fuel => by rw [BacktrackCtxt.scan, Fuel.loop_inl onward, ← BacktrackCtxt.scan]
        have later : ∀ {value}, (∃ enough, ∀ fuel, enough ≤ fuel →
            BacktrackCtxt.scan strictAccessor index context.decoder fuel bounds root (second :: rest) = value) →
            ∃ enough, ∀ fuel, enough ≤ fuel →
              BacktrackCtxt.scan strictAccessor index context.decoder fuel bounds root
                (entry :: second :: rest) = value := by
          rintro value ⟨enough, computed⟩
          refine ⟨enough + 1, fun fuel more => ?_⟩
          obtain ⟨fuel, rfl⟩ := Nat.exists_eq_add_of_le' (Nat.le_of_add_left_le more)
          rw [shift]
          exact computed fuel (by omega)
        rcases ih scannable.tail (by simp) with ⟨none', last, computed⟩ | ⟨found, more, split, scannable', shorter, computed⟩
        · exact Or.inl ⟨none', last, later computed⟩
        · exact Or.inr ⟨found, more, split, scannable', Nat.lt_succ_of_lt shorter, later computed⟩

/-- What is left for a range to offer. -/
def accepted (context : SearchContext D) (id : Nat) (iterator : TmpIterator) :
    List (EncodedFormula × TmpIndexNode) :=
  (iterator.filter fun entry => accepts context id entry.1).map fun entry => ([entry.1], entry.2)

/-- The entry of a range behind an accepted child. -/
theorem offers_range {id : Nat} {bounds : D.Carrier × D.Carrier}
    (limits : context.rangeBounds.lookup id = some bounds) (root : TmpIndexNode) :
    ∀ (length : Nat) {entry : EncodedToken × TmpIndexNode} {rest : TmpIterator}, rest.length < length →
      Scannable context id root (entry :: rest) →
      Offers context index (.restricted id) [entry.1]
        (.range true bounds (some root) (some (entry :: rest)) : Entry D) (accepted context id rest) := by
  intro length
  induction length with
  | zero =>
    intro entry rest short
    omega
  | succ length ih =>
    intro entry rest short scannable
    cases rest with
    | nil =>
      have done : ∀ fuel, (BacktrackCtxt.range true bounds (some root) (some [entry]) : Entry D).nextSol
          strictAccessor index context.decoder fuel =
            some (.range false bounds (some root) (some [entry]), none) := by
        intro fuel
        simp [BacktrackCtxt.nextSol]
      exact .last trivial ⟨0, fun fuel _ => done fuel⟩ limits
    | cons second rest =>
      have go : ∀ fuel, (BacktrackCtxt.range true bounds (some root) (some (entry :: second :: rest)) :
          Entry D).nextSol strictAccessor index context.decoder fuel =
            BacktrackCtxt.scan strictAccessor index context.decoder fuel bounds root (second :: rest) := by
        intro fuel
        simp [BacktrackCtxt.nextSol]
      rcases scan_spec index limits root (second :: rest) scannable.tail (by simp) with
        ⟨none', last, enough, computed⟩ | ⟨found, more, split, scannable', shorter, enough, computed⟩
      · rw [accepted, none']
        exact .last trivial ⟨enough, fun fuel more => (go fuel).trans (computed fuel more)⟩ limits
      · rw [accepted, split, List.map_cons]
        refine .more trivial ⟨enough, fun fuel more => (go fuel).trans (computed fuel more)⟩ (ih ?_ scannable')
        exact lt_of_lt_of_le shorter (Nat.le_of_lt_succ short)

/-- **Solving a range**: it offers the children it accepts, or there are none. -/
theorem solve_range {id : Nat} {entry : Entry D} (fresh : Fresh context (.restricted id) entry)
    {node : TmpIndexNode} (scannable : Scannable context id node node.children)
    (nonempty : node.children ≠ []) :
    (accepted context id node.children = [] ∧ ∃ entry', Fresh context (.restricted id) entry' ∧
      ∃ enough, ∀ fuel, enough ≤ fuel →
        entry.solve strictAccessor index context.decoder fuel node = some (entry', none)) ∨
    ∃ term rest entry', accepted context id node.children = term :: rest ∧
      (∃ enough, ∀ fuel, enough ≤ fuel →
        entry.solve strictAccessor index context.decoder fuel node = some (entry', some term.2)) ∧
      Offers context index (.restricted id) term.1 entry' rest := by
  cases entry with
  | qvar => exact fresh.elim
  | range isSolved bounds root iterator =>
    have go : ∀ fuel, (BacktrackCtxt.range isSolved bounds root iterator : Entry D).solve strictAccessor
        index context.decoder fuel node =
          BacktrackCtxt.scan strictAccessor index context.decoder fuel bounds node node.children := by
      intro fuel
      simp [BacktrackCtxt.solve, nonempty]
    rcases scan_spec index fresh node node.children scannable nonempty with
      ⟨none', last, enough, computed⟩ | ⟨found, more, split, scannable', shorter, enough, computed⟩
    · refine Or.inl ⟨by rw [accepted, none']; rfl, .range false bounds (some node) (some last), fresh,
        enough, fun fuel more => (go fuel).trans (computed fuel more)⟩
    · refine Or.inr ⟨_, _, _, by rw [accepted, split, List.map_cons],
        ⟨enough, fun fuel more => (go fuel).trans (computed fuel more)⟩, ?_⟩
      exact offers_range index fresh node _ (Nat.lt_succ_self _) scannable'

end Offering

end SearchContext

end MathWebSearch
