/-
**Computations that follow one another.**

A computation with values in `Option` may fault. `Follows R first second` says that whenever the first
computes a value, the second computes one too, and the two are related; where the first faults nothing is
asked. It passes through `bind`, through loops with the same fuel, and through lookups in related lists.
-/

import MathWebSearch.Library.Fuel

namespace Simulation

variable {α β γ δ σ τ : Type}

/-- A value of the first computation has a related value of the second. -/
def Follows (R : α → β → Prop) (first : Option α) (second : Option β) : Prop :=
  ∀ value, first = some value → ∃ value', second = some value' ∧ R value value'

namespace Follows

variable {R : α → β → Prop} {S : γ → δ → Prop}

theorem fault {second : Option β} : Follows R none second := fun _ computed => nomatch computed

theorem value {first : α} {second : β} (related : R first second) :
    Follows R (some first) (some second) := by
  intro output computed
  exact ⟨second, rfl, Option.some.inj computed ▸ related⟩

theorem of_rel {first : Option α} {second : Option β} (related : Option.Rel R first second) :
    Follows R first second := by
  cases related with
  | some related => exact value related
  | none => exact fault

theorem bind {first : Option α} {second : Option β} {f : α → Option γ} {g : β → Option δ}
    (here : Follows R first second) (after : ∀ value value', R value value' → Follows S (f value) (g value')) :
    Follows S (first >>= f) (second >>= g) := by
  intro output computed
  obtain ⟨value, found, rest⟩ := Option.bind_eq_some_iff.mp computed
  obtain ⟨value', found', related⟩ := here value found
  obtain ⟨output', rest', related'⟩ := after value value' related output rest
  exact ⟨output', Option.bind_eq_some_iff.mpr ⟨value', found', rest'⟩, related'⟩

/-- The same computation before both. -/
theorem bind_same {first : Option α} {f : α → Option γ} {g : α → Option δ}
    (after : ∀ value, Follows S (f value) (g value)) : Follows S (first >>= f) (first >>= g) :=
  bind (fun value computed => ⟨value, computed, rfl⟩) fun _ _ same => same ▸ after _

theorem map {first : Option α} {second : Option β} {f : α → γ} {g : β → δ}
    (here : Follows R first second) (after : ∀ value value', R value value' → S (f value) (g value')) :
    Follows S (first.map f) (second.map g) := by
  intro output computed
  obtain ⟨value, found, rfl⟩ := Option.map_eq_some_iff.mp computed
  obtain ⟨value', found', related⟩ := here value found
  exact ⟨g value', by rw [found', Option.map_some], after value value' related⟩

/-- Related lists are looked up with related results. -/
theorem getElem? {first : List α} {second : List β} (related : List.Forall₂ R first second) (number : Nat) :
    Follows R first[number]? second[number]? := by
  induction related generalizing number with
  | nil => exact fault
  | cons head _ ih =>
    cases number with
    | zero => exact value head
    | succ number => exact ih number

/-- **Loops**: steps that follow one another make loops that do. -/
theorem loop {step : σ → Option (σ ⊕ γ)} {step' : τ → Option (τ ⊕ δ)} {R : σ → τ → Prop}
    (follow : ∀ state state', R state state' → Follows (Sum.LiftRel R S) (step state) (step' state')) :
    ∀ (fuel : Nat) {state : σ} {state' : τ}, R state state' →
      Follows S (Fuel.loop step fuel state) (Fuel.loop step' fuel state') := by
  intro fuel
  induction fuel with
  | zero => intro state state' _; exact fault
  | succ fuel ih =>
    intro state state' related output computed
    cases here : step state with
    | none => simp [Fuel.loop, here] at computed
    | some next =>
      obtain ⟨next', here', relatedNext⟩ := follow state state' related next here
      cases relatedNext with
      | inl relatedNext =>
        rw [Fuel.loop_inl here] at computed
        rw [Fuel.loop_inl here']
        exact ih relatedNext output computed
      | inr relatedValue =>
        rw [Fuel.loop_inr here] at computed
        obtain rfl := Option.some.inj computed
        exact ⟨_, Fuel.loop_inr here', relatedValue⟩

end Follows

theorem isSome_eq_of_rel {R : α → β → Prop} {first : Option α} {second : Option β}
    (related : Option.Rel R first second) : first.isSome = second.isSome := by
  cases related with
  | some => rfl
  | none => rfl

theorem forall₂_set {R : α → β → Prop} {first : List α} {second : List β}
    (related : List.Forall₂ R first second) {value : α} {value' : β} (new : R value value') (number : Nat) :
    List.Forall₂ R (first.set number value) (second.set number value') := by
  induction related generalizing number with
  | nil => exact .nil
  | cons head rest ih =>
    cases number with
    | zero => exact .cons new rest
    | succ number => exact .cons head (ih number)

end Simulation
