/-
**Patterns over prefix codes.**

A pattern is a word whose symbols stand for themselves or for a hole: a named hole stands for the same
complete term wherever its name occurs, an anonymous one for any complete term and a restricted one for
a single symbol of arity 0 that its restriction accepts.

* `Instance substitution pattern word` — `word` is the pattern with its holes filled.
* `Matches bound pattern word` — some substitution that agrees with what is already bound does it.
* `matches_constant` to `matches_restricted` — reading a pattern symbol by symbol: since a complete term
  can be read off a word in one way only, every hole determines what it stands for.
* `instance_constant` to `instance_restricted` — the same for one substitution.
-/

import MathWebSearch.Library.PrefixCode

namespace PatternWord

open PrefixCode

/-- What a symbol of a pattern stands for. -/
inductive Role (ν ρ : Type) where
  | constant
  | named (name : ν)
  | anonymous
  | restricted (restriction : ρ)
deriving DecidableEq

section Patterns

variable {α ν ρ : Type} (ar : α → Nat) (role : α → Role ν ρ) (accepts : ρ → α → Bool)

/-- The arity of a symbol in a pattern: a hole is one whole term. -/
def patternArity (symbol : α) : Nat :=
  match role symbol with
  | .constant => ar symbol
  | _ => 0

/-- **The word is the pattern with its holes filled.** -/
inductive Instance (substitution : ν → List α) : List α → List α → Prop
  | nil : Instance substitution [] []
  | constant {symbol : α} {pattern word : List α} : role symbol = .constant →
      Instance substitution pattern word → Instance substitution (symbol :: pattern) (symbol :: word)
  | named {symbol : α} {name : ν} {pattern word : List α} : role symbol = .named name →
      Closes ar 1 (substitution name) → Instance substitution pattern word →
      Instance substitution (symbol :: pattern) (substitution name ++ word)
  | anonymous {symbol : α} {term pattern word : List α} : role symbol = .anonymous →
      Closes ar 1 term → Instance substitution pattern word →
      Instance substitution (symbol :: pattern) (term ++ word)
  | restricted {symbol inner : α} {restriction : ρ} {pattern word : List α} :
      role symbol = .restricted restriction → ar inner = 0 → accepts restriction inner = true →
      Instance substitution pattern word → Instance substitution (symbol :: pattern) (inner :: word)

/-- A substitution that agrees with the names bound so far makes the word an instance. -/
def Matches (bound : ν → Option (List α)) (pattern word : List α) : Prop :=
  ∃ substitution, (∀ name term, bound name = some term → substitution name = term) ∧
    Instance ar role accepts substitution pattern word

variable {ar role accepts} {bound : ν → Option (List α)} {symbol inner : α}
  {term pattern word : List α}

theorem patternArity_constant (constant : role symbol = .constant) :
    patternArity ar role symbol = ar symbol := by
  rw [patternArity, constant]

theorem patternArity_hole (hole : role symbol ≠ .constant) : patternArity ar role symbol = 0 := by
  unfold patternArity
  split
  · contradiction
  · rfl

theorem matches_nil : Matches ar role accepts bound [] word ↔ word = [] := by
  constructor
  · rintro ⟨substitution, _, inst⟩
    cases inst
    rfl
  · rintro rfl
    exact ⟨fun name => (bound name).getD [], fun name term found => by simp [found], .nil⟩

theorem matches_constant (constant : role symbol = .constant) :
    Matches ar role accepts bound (symbol :: pattern) (inner :: word) ↔
      inner = symbol ∧ Matches ar role accepts bound pattern word := by
  constructor
  · rintro ⟨substitution, agrees, inst⟩
    generalize same : inner :: word = whole at inst
    cases inst with
    | constant _ rest =>
      obtain ⟨rfl, rfl⟩ := List.cons.inj same
      exact ⟨rfl, substitution, agrees, rest⟩
    | named other => rw [constant] at other; cases other
    | anonymous other => rw [constant] at other; cases other
    | restricted other => rw [constant] at other; cases other
  · rintro ⟨rfl, substitution, agrees, rest⟩
    exact ⟨substitution, agrees, .constant constant rest⟩

/-- The front term of a word that starts with a named hole. -/
theorem Instance.named_inv {name : ν} {substitution : ν → List α} (hole : role symbol = .named name)
    (closes : Closes ar 1 term)
    (inst : Instance ar role accepts substitution (symbol :: pattern) (term ++ word)) :
    substitution name = term ∧ Instance ar role accepts substitution pattern word := by
  generalize same : term ++ word = whole at inst
  cases inst with
  | constant other => rw [hole] at other; cases other
  | named other closes' rest =>
    rw [hole] at other
    cases other
    obtain ⟨rfl, rfl⟩ := closes.cancel closes' same
    exact ⟨rfl, rest⟩
  | anonymous other => rw [hole] at other; cases other
  | restricted other => rw [hole] at other; cases other

theorem matches_named_bound {name : ν} {value : List α} (hole : role symbol = .named name)
    (found : bound name = some value) (closes : Closes ar 1 term) :
    Matches ar role accepts bound (symbol :: pattern) (term ++ word) ↔
      term = value ∧ Matches ar role accepts bound pattern word := by
  constructor
  · rintro ⟨substitution, agrees, inst⟩
    obtain ⟨same, rest⟩ := inst.named_inv hole closes
    exact ⟨same.symm.trans (agrees name value found), substitution, agrees, rest⟩
  · rintro ⟨rfl, substitution, agrees, rest⟩
    have same := agrees name term found
    refine ⟨substitution, agrees, ?_⟩
    rw [← same] at closes ⊢
    exact .named hole closes rest

theorem matches_named_fresh [DecidableEq ν] {name : ν} (hole : role symbol = .named name)
    (fresh : bound name = none) (closes : Closes ar 1 term) :
    Matches ar role accepts bound (symbol :: pattern) (term ++ word) ↔
      Matches ar role accepts (Function.update bound name (some term)) pattern word := by
  constructor
  · rintro ⟨substitution, agrees, inst⟩
    obtain ⟨same, rest⟩ := inst.named_inv hole closes
    refine ⟨substitution, fun other value found => ?_, rest⟩
    by_cases here : other = name
    · subst here
      rw [Function.update_self] at found
      exact same.trans (Option.some.inj found)
    · rw [Function.update_of_ne here] at found
      exact agrees other value found
  · rintro ⟨substitution, agrees, rest⟩
    have same : substitution name = term := agrees name term (Function.update_self ..)
    refine ⟨substitution, fun other value found => agrees other value ?_, ?_⟩
    · have different : other ≠ name := by
        rintro rfl
        rw [fresh] at found
        cases found
      rw [Function.update_of_ne different]
      exact found
    · rw [← same] at closes ⊢
      exact .named hole closes rest

theorem matches_anonymous (hole : role symbol = .anonymous) (closes : Closes ar 1 term) :
    Matches ar role accepts bound (symbol :: pattern) (term ++ word) ↔
      Matches ar role accepts bound pattern word := by
  constructor
  · rintro ⟨substitution, agrees, inst⟩
    refine ⟨substitution, agrees, ?_⟩
    generalize same : term ++ word = whole at inst
    cases inst with
    | constant other => rw [hole] at other; cases other
    | named other => rw [hole] at other; cases other
    | anonymous _ closes' rest =>
      obtain ⟨rfl, rfl⟩ := closes.cancel closes' same
      exact rest
    | restricted other => rw [hole] at other; cases other
  · rintro ⟨substitution, agrees, rest⟩
    exact ⟨substitution, agrees, .anonymous hole closes rest⟩

theorem matches_restricted {restriction : ρ} (hole : role symbol = .restricted restriction) :
    Matches ar role accepts bound (symbol :: pattern) (inner :: word) ↔
      (ar inner = 0 ∧ accepts restriction inner = true) ∧
        Matches ar role accepts bound pattern word := by
  constructor
  · rintro ⟨substitution, agrees, inst⟩
    generalize same : inner :: word = whole at inst
    cases inst with
    | constant other => rw [hole] at other; cases other
    | named other => rw [hole] at other; cases other
    | anonymous other => rw [hole] at other; cases other
    | restricted other closed accepted rest =>
      rw [hole] at other
      cases other
      obtain ⟨rfl, rfl⟩ := List.cons.inj same
      exact ⟨⟨closed, accepted⟩, substitution, agrees, rest⟩
  · rintro ⟨⟨closed, accepted⟩, substitution, agrees, rest⟩
    exact ⟨substitution, agrees, .restricted hole closed accepted rest⟩

/-- The word begins with what the first symbol of the pattern stands for: the symbol itself, or a complete term. -/
theorem Matches.exists_front (matched : Matches ar role accepts bound (symbol :: pattern) word) :
    (role symbol = .constant → ∃ rest, word = symbol :: rest) ∧
      (role symbol ≠ .constant → ∃ term rest, Closes ar 1 term ∧ word = term ++ rest) := by
  obtain ⟨substitution, -, inst⟩ := matched
  cases inst with
  | @constant _ _ rest constant => exact ⟨fun _ => ⟨rest, rfl⟩, fun hole => absurd constant hole⟩
  | @named _ name _ rest hole closes =>
    exact ⟨fun constant => absurd (hole.symm.trans constant) (by simp), fun _ => ⟨substitution name, rest, closes, rfl⟩⟩
  | @anonymous _ term _ rest hole closes =>
    exact ⟨fun constant => absurd (hole.symm.trans constant) (by simp), fun _ => ⟨term, rest, closes, rfl⟩⟩
  | @restricted _ inner _ _ rest hole closed =>
    refine ⟨fun constant => absurd (hole.symm.trans constant) (by simp), fun _ => ⟨[inner], rest, ?_, rfl⟩⟩
    rw [closes_cons, closed]
    trivial

/-- **A pattern without holes** matches itself only. -/
theorem matches_constants (constants : ∀ symbol ∈ pattern, role symbol = .constant) :
    Matches ar role accepts bound pattern word ↔ word = pattern := by
  induction pattern generalizing word with
  | nil => exact matches_nil
  | cons symbol pattern ih =>
    obtain ⟨here, others⟩ := List.forall_mem_cons.mp constants
    cases word with
    | nil =>
      refine iff_of_false (fun matched => ?_) (List.cons_ne_nil _ _).symm
      obtain ⟨substitution, _, inst⟩ := matched
      generalize same : ([] : List α) = whole at inst
      cases inst with
      | constant => cases same
      | named other => rw [here] at other; cases other
      | anonymous other => rw [here] at other; cases other
      | restricted => cases same
    | cons inner word => rw [matches_constant here, ih others, List.cons.injEq]

/-! ### One substitution -/

section Substitution

variable {substitution : ν → List α}

theorem instance_nil : Instance ar role accepts substitution [] word ↔ word = [] := by
  constructor
  · intro inst
    cases inst
    rfl
  · rintro rfl
    exact .nil

theorem instance_constant (constant : role symbol = .constant) :
    Instance ar role accepts substitution (symbol :: pattern) (inner :: word) ↔
      inner = symbol ∧ Instance ar role accepts substitution pattern word := by
  constructor
  · intro inst
    generalize same : inner :: word = whole at inst
    cases inst with
    | constant _ rest =>
      obtain ⟨rfl, rfl⟩ := List.cons.inj same
      exact ⟨rfl, rest⟩
    | named other => rw [constant] at other; cases other
    | anonymous other => rw [constant] at other; cases other
    | restricted other => rw [constant] at other; cases other
  · rintro ⟨rfl, rest⟩
    exact .constant constant rest

theorem instance_named {name : ν} (hole : role symbol = .named name) (closes : Closes ar 1 term) :
    Instance ar role accepts substitution (symbol :: pattern) (term ++ word) ↔
      substitution name = term ∧ Instance ar role accepts substitution pattern word := by
  refine ⟨fun inst => inst.named_inv hole closes, ?_⟩
  rintro ⟨rfl, rest⟩
  exact .named hole closes rest

theorem instance_anonymous (hole : role symbol = .anonymous) (closes : Closes ar 1 term) :
    Instance ar role accepts substitution (symbol :: pattern) (term ++ word) ↔
      Instance ar role accepts substitution pattern word := by
  refine ⟨fun inst => ?_, .anonymous hole closes⟩
  generalize same : term ++ word = whole at inst
  cases inst with
  | constant other => rw [hole] at other; cases other
  | named other => rw [hole] at other; cases other
  | anonymous _ closes' rest =>
    obtain ⟨rfl, rfl⟩ := closes.cancel closes' same
    exact rest
  | restricted other => rw [hole] at other; cases other

theorem instance_restricted {restriction : ρ} (hole : role symbol = .restricted restriction) :
    Instance ar role accepts substitution (symbol :: pattern) (inner :: word) ↔
      (ar inner = 0 ∧ accepts restriction inner = true) ∧ Instance ar role accepts substitution pattern word := by
  constructor
  · intro inst
    generalize same : inner :: word = whole at inst
    cases inst with
    | constant other => rw [hole] at other; cases other
    | named other => rw [hole] at other; cases other
    | anonymous other => rw [hole] at other; cases other
    | restricted other closed accepted rest =>
      rw [hole] at other
      cases other
      obtain ⟨rfl, rfl⟩ := List.cons.inj same
      exact ⟨⟨closed, accepted⟩, rest⟩
  · rintro ⟨⟨closed, accepted⟩, rest⟩
    exact .restricted hole closed accepted rest

end Substitution

end Patterns

end PatternWord
