/-
**Loops that may fault or run on: fuel, steps and runs.**

A loop is a step function `step : σ → Option (σ ⊕ β)`: `none` is a fault, `.inl` the state of the
next iteration and `.inr` the value the loop is left with.

* `loop step fuel state` — at most `fuel` iterations; `none` when the loop faults or the fuel is used
  up.
* `Steps step count state state'` — `count` iterations lead from `state` to `state'`.
* `loop_of_steps` — a run that reaches an exit has its value as the loop's result for every large
  enough fuel. The step function may itself use the fuel (a loop inside a loop), as long as more
  fuel never changes a value it has already computed (`FuelMono`).
* `Leads`, `Reaches` — where a run comes to with enough fuel, and how such runs compose.
* `isSome_foldlM` — a fold goes through when all of its steps do.
-/

import Mathlib

namespace Fuel

variable {σ β : Type}

/-- At most `fuel` iterations of `step`. -/
def loop (step : σ → Option (σ ⊕ β)) : Nat → σ → Option β
  | 0, _ => none
  | fuel + 1, state =>
    match step state with
    | none => none
    | some (.inl next) => loop step fuel next
    | some (.inr value) => some value

/-- `count` iterations lead from the first state to the second. -/
inductive Steps (step : σ → Option (σ ⊕ β)) : Nat → σ → σ → Prop
  | refl (state : σ) : Steps step 0 state state
  | head {count : Nat} {first middle last : σ} :
      step first = some (.inl middle) → Steps step count middle last →
        Steps step (count + 1) first last

section Runs

variable {step : σ → Option (σ ⊕ β)}

theorem loop_inl {fuel : Nat} {state next : σ} (here : step state = some (.inl next)) :
    loop step (fuel + 1) state = loop step fuel next := by
  simp [loop, here]

theorem loop_inr {fuel : Nat} {state : σ} {value : β} (here : step state = some (.inr value)) :
    loop step (fuel + 1) state = some value := by
  simp [loop, here]

theorem Steps.single {first last : σ} (here : step first = some (.inl last)) :
    Steps step 1 first last := .head here (.refl last)

theorem Steps.trans {count count' : Nat} {first middle last : σ}
    (one : Steps step count first middle) (two : Steps step count' middle last) :
    Steps step (count + count') first last := by
  induction one with
  | refl state => simpa using two
  | head here _ ih => rw [Nat.add_right_comm]; exact .head here (ih two)

theorem Steps.loop_eq {count : Nat} {first last : σ} (steps : Steps step count first last)
    (fuel : Nat) : loop step (count + fuel) first = loop step fuel last := by
  induction steps with
  | refl state => rw [Nat.zero_add]
  | head here _ ih => rw [Nat.add_right_comm, loop_inl here, ih]

end Runs

/-! ### Step functions that use the fuel themselves -/

/-- A value of the first is the value of the second. -/
def Below {δ : Type} (first second : Option δ) : Prop := ∀ output, first = some output → second = some output

theorem Below.refl {δ : Type} (value : Option δ) : Below value value := fun _ computed => computed

theorem Below.bind {γ δ : Type} {first second : Option γ} {f g : γ → Option δ}
    (here : Below first second) (after : ∀ value, Below (f value) (g value)) :
    Below (first >>= f) (second >>= g) := by
  intro output computed
  obtain ⟨value, found, rest⟩ := Option.bind_eq_some_iff.mp computed
  exact Option.bind_eq_some_iff.mpr ⟨value, here value found, after value output rest⟩

/-- More fuel never changes a value that has been computed. -/
def FuelMono {γ δ : Type} (f : Nat → γ → Option δ) : Prop :=
  ∀ fuel input, Below (f fuel input) (f (fuel + 1) input)

theorem FuelMono.le {γ δ : Type} {f : Nat → γ → Option δ} (mono : FuelMono f) {fuel fuel' : Nat}
    (more : fuel ≤ fuel') {input : γ} {output : δ} (computed : f fuel input = some output) :
    f fuel' input = some output := by
  induction more with
  | refl => exact computed
  | step _ ih => exact mono _ _ _ ih

/-- A value that is computed is the one that enough fuel comes to. -/
theorem FuelMono.agree {γ δ : Type} {f : Nat → γ → Option δ} (mono : FuelMono f) {fuel : Nat} {input : γ}
    {output output' : δ} (computed : f fuel input = some output)
    (eventually : ∃ enough, ∀ fuel, enough ≤ fuel → f fuel input = some output') : output = output' := by
  obtain ⟨enough, eventually⟩ := eventually
  have later := mono.le (le_max_left fuel enough) computed
  rw [eventually _ (le_max_right fuel enough)] at later
  exact (Option.some.inj later).symm

theorem loop_mono (step : σ → Option (σ ⊕ β)) : FuelMono (loop step) := by
  intro fuel
  induction fuel with
  | zero => intro state value computed; cases computed
  | succ fuel ih =>
    intro state value computed
    cases here : step state with
    | none => simp [loop, here] at computed
    | some next =>
      cases next with
      | inl next =>
        rw [loop_inl here] at computed ⊢
        exact ih next value computed
      | inr value' =>
        rw [loop_inr here] at computed ⊢
        exact computed

/-- The same when the step function uses the fuel too. -/
theorem FuelMono.loop {step : Nat → σ → Option (σ ⊕ β)} (mono : FuelMono step) :
    FuelMono fun fuel state => Fuel.loop (step fuel) fuel state := by
  have steps : ∀ (count fuel : Nat) (state : σ),
      Below (Fuel.loop (step fuel) count state) (Fuel.loop (step (fuel + 1)) count state) := by
    intro count
    induction count with
    | zero => intro fuel state value computed; cases computed
    | succ count ih =>
      intro fuel state value computed
      cases here : step fuel state with
      | none => simp [Fuel.loop, here] at computed
      | some next =>
        have later := mono fuel state next here
        cases next with
        | inl next =>
          rw [loop_inl here] at computed
          rw [loop_inl later]
          exact ih fuel next value computed
        | inr output =>
          rw [loop_inr here] at computed
          rw [loop_inr later]
          exact computed
  exact fun fuel state value computed =>
    loop_mono (step (fuel + 1)) fuel state value (steps fuel fuel state value computed)

theorem Steps.mono {step : Nat → σ → Option (σ ⊕ β)} (mono : FuelMono step) {fuel fuel' : Nat}
    (more : fuel ≤ fuel') {count : Nat} {first last : σ}
    (steps : Steps (step fuel) count first last) : Steps (step fuel') count first last := by
  induction steps with
  | refl state => exact .refl state
  | head here _ ih => exact .head (mono.le more here) ih

/-- **A run that reaches an exit is the loop's value, for every large enough fuel.** -/
theorem loop_of_steps {step : Nat → σ → Option (σ ⊕ β)} (mono : FuelMono step) {fuel count : Nat}
    {first last : σ} {value : β} (steps : Steps (step fuel) count first last)
    (exit : step fuel last = some (.inr value)) :
    ∀ fuel', fuel + count + 1 ≤ fuel' → loop (step fuel') fuel' first = some value := by
  intro fuel' enough
  have more : fuel ≤ fuel' := by omega
  have split : fuel' = count + ((fuel' - count - 1) + 1) := by omega
  have run := (steps.mono mono more).loop_eq (fuel' - count - 1 + 1)
  rw [← split] at run
  rw [run]
  exact loop_inr (mono.le more exit)

/-! ### Where a run leads -/

/-- **With enough fuel the run from `state` comes to a round with the given outcome.** The outcome may
depend on the fuel, as the step function does. -/
def Leads (step : Nat → σ → Option (σ ⊕ β)) (state : σ) (outcome : Nat → Option (σ ⊕ β)) : Prop :=
  ∃ enough, ∀ fuel, enough ≤ fuel →
    ∃ count last, Steps (step fuel) count state last ∧ step fuel last = outcome fuel

namespace Leads

variable {step : Nat → σ → Option (σ ⊕ β)} {state next : σ} {outcome outcome' : Nat → Option (σ ⊕ β)}

theorem here (same : ∃ enough, ∀ fuel, enough ≤ fuel → step fuel state = outcome fuel) :
    Leads step state outcome := by
  obtain ⟨enough, same⟩ := same
  exact ⟨enough, fun fuel more => ⟨0, state, .refl state, same fuel more⟩⟩

/-- Replacing the outcome by one it comes to with enough fuel. -/
theorem congr (leads : Leads step state outcome)
    (same : ∃ enough, ∀ fuel, enough ≤ fuel → outcome fuel = outcome' fuel) :
    Leads step state outcome' := by
  obtain ⟨enough, run⟩ := leads
  obtain ⟨enough', same⟩ := same
  refine ⟨max enough enough', fun fuel more => ?_⟩
  obtain ⟨count, last, steps, output⟩ := run fuel (le_trans (le_max_left _ _) more)
  exact ⟨count, last, steps, output.trans (same fuel (le_trans (le_max_right _ _) more))⟩

/-- Going on from the state a run has come to. -/
theorem trans (leads : Leads step state outcome)
    (reached : ∃ enough, ∀ fuel, enough ≤ fuel → outcome fuel = some (.inl next))
    (onward : Leads step next outcome') : Leads step state outcome' := by
  obtain ⟨enough, run⟩ := leads.congr reached
  obtain ⟨enough', run'⟩ := onward
  refine ⟨max enough enough', fun fuel more => ?_⟩
  obtain ⟨count, last, steps, output⟩ := run fuel (le_trans (le_max_left _ _) more)
  obtain ⟨count', last', steps', output'⟩ := run' fuel (le_trans (le_max_right _ _) more)
  exact ⟨_, last', (steps.trans (.single output)).trans steps', output'⟩

/-- A run that leads to an exit is the loop's value. -/
theorem loop_eq (mono : FuelMono step) {value : β}
    (leads : Leads step state fun _ => some (.inr value)) :
    ∃ enough, ∀ fuel, enough ≤ fuel → loop (step fuel) fuel state = some value := by
  obtain ⟨enough, run⟩ := leads
  obtain ⟨count, last, steps, output⟩ := run enough le_rfl
  exact ⟨enough + count + 1, loop_of_steps mono steps output⟩

end Leads

/-- With enough fuel, a run from the state comes to a state with the property. -/
def Reaches (step : Nat → σ → Option (σ ⊕ β)) (state : σ) (goal : σ → Prop) : Prop :=
  ∃ enough, ∀ fuel, enough ≤ fuel → ∃ count last, Steps (step fuel) count state last ∧ goal last

namespace Reaches

variable {step : Nat → σ → Option (σ ⊕ β)} {state next : σ} {goal : σ → Prop}

theorem here (holds : goal state) : Reaches step state goal := ⟨0, fun _ _ => ⟨0, state, .refl state, holds⟩⟩

/-- Going on from the state a run has come to. -/
theorem of_leads {outcome : Nat → Option (σ ⊕ β)} (leads : Leads step state outcome)
    (reached : ∃ enough, ∀ fuel, enough ≤ fuel → outcome fuel = some (.inl next))
    (onward : Reaches step next goal) : Reaches step state goal := by
  obtain ⟨enough, run⟩ := leads.congr reached
  obtain ⟨enough', run'⟩ := onward
  refine ⟨max enough enough', fun fuel more => ?_⟩
  obtain ⟨count, last, steps, output⟩ := run fuel (le_trans (le_max_left _ _) more)
  obtain ⟨count', last', steps', holds⟩ := run' fuel (le_trans (le_max_right _ _) more)
  exact ⟨_, last', (steps.trans (.single output)).trans steps', holds⟩

/-- Going on from the next state. -/
theorem of_step (moved : ∃ enough, ∀ fuel, enough ≤ fuel → step fuel state = some (.inl next))
    (onward : Reaches step next goal) : Reaches step state goal :=
  of_leads (.here moved) ⟨0, fun _ _ => rfl⟩ onward

/-- A run with more fuel takes the steps of one that comes to a value. -/
theorem steps_of_loop (mono : FuelMono step) {fuel fuel' : Nat} (more : fuel ≤ fuel') {count : Nat} {first last : σ}
    (steps : Steps (step fuel') count first last) :
    ∀ {limit : Nat} {value : β}, loop (step fuel) limit first = some value → Steps (step fuel) count first last := by
  induction steps with
  | refl state => exact fun _ => .refl state
  | @head count first middle last onward _ ih =>
    intro limit value looped
    cases limit with
    | zero => cases looped
    | succ limit =>
      cases stepped : step fuel first with
      | none => simp [loop, stepped] at looped
      | some next =>
        obtain rfl : next = .inl middle := Option.some.inj ((mono.le more stepped).symm.trans onward)
        rw [loop_inl stepped] at looped
        exact .head stepped (ih looped)

/-- A run that comes to a value has come to the state before. -/
theorem of_loop (mono : FuelMono step) (reaches : Reaches step state goal) {fuel limit : Nat} {value : β}
    (looped : loop (step fuel) limit state = some value) :
    ∃ count last, Steps (step fuel) count state last ∧ goal last := by
  obtain ⟨enough, run⟩ := reaches
  obtain ⟨count, last, steps, holds⟩ := run (max fuel enough) (le_max_right fuel enough)
  exact ⟨count, last, steps_of_loop mono (le_max_left fuel enough) steps looped, holds⟩

end Reaches

/-! ### Folds that go through -/

/-- A fold goes through when all of its steps do. -/
theorem isSome_foldlM {α : Type} {step : σ → α → Option σ} (items : List α)
    (goes : ∀ state, ∀ item ∈ items, (step state item).isSome) : ∀ state, (items.foldlM step state).isSome := by
  induction items with
  | nil => intro state; rfl
  | cons item rest ih =>
    intro state
    obtain ⟨next, stepped⟩ := Option.isSome_iff_exists.mp (goes state item List.mem_cons_self)
    rw [List.foldlM_cons, stepped]
    exact ih (fun state other member => goes state other (List.mem_cons_of_mem _ member)) next

end Fuel
