import Mathlib.Data.List.Basic
import Mathlib.Logic.Relation

/-!
# Runs of a step function

A run is a list of events folded over a state. A guard says which events a state admits, and an
invariant that every admitted step keeps holds in every state of every admitted run.
-/

namespace Run

variable {σ ε : Type}

/-- The state a list of events leads to. -/
def run (step : σ → ε → σ) (state : σ) (events : List ε) : σ := events.foldl step state

/-- Every event of the list meets the guard in the state it is taken from. -/
def Guarded (step : σ → ε → σ) (guard : σ → ε → Prop) : σ → List ε → Prop
  | _, [] => True
  | state, event :: events => guard state event ∧ Guarded step guard (step state event) events

instance instDecidableGuarded (step : σ → ε → σ) (guard : σ → ε → Prop)
    [∀ state event, Decidable (guard state event)] :
    ∀ (state : σ) (events : List ε), Decidable (Guarded step guard state events)
  | _, [] => isTrue trivial
  | state, event :: events =>
      @instDecidableAnd _ _ inferInstance
        (instDecidableGuarded step guard (step state event) events)

variable {step : σ → ε → σ} {guard : σ → ε → Prop} {state : σ} {events : List ε}

@[simp]
theorem run_nil : run step state [] = state := rfl

@[simp]
theorem run_cons (event : ε) :
    run step state (event :: events) = run step (step state event) events := rfl

@[simp]
theorem run_append (more : List ε) :
    run step state (events ++ more) = run step (run step state events) more := List.foldl_append

theorem guarded_append (more : List ε) :
    Guarded step guard state (events ++ more)
      ↔ Guarded step guard state events ∧ Guarded step guard (run step state events) more := by
  induction events generalizing state with
  | nil => simp [Guarded]
  | cons event events ih => simp [Guarded, ih, and_assoc]

theorem guarded_of_forall (hguard : ∀ state event, guard state event) (state : σ)
    (events : List ε) : Guarded step guard state events := by
  induction events generalizing state with
  | nil => trivial
  | cons event events ih => exact ⟨hguard state event, ih _⟩

/-- A guard may be traded for one that follows from it under an invariant. -/
theorem Guarded.mono {weaker : σ → ε → Prop} (Inv : σ → Prop)
    (hstep : ∀ state event, guard state event → Inv state → Inv (step state event))
    (hle : ∀ state event, guard state event → Inv state → weaker state event)
    (hguarded : Guarded step guard state events) (hinv : Inv state) :
    Guarded step weaker state events := by
  induction events generalizing state with
  | nil => trivial
  | cons event events ih =>
      exact ⟨hle _ _ hguarded.1 hinv, ih hguarded.2 (hstep _ _ hguarded.1 hinv)⟩

/-- **The invariant rule.** What holds at the start and is kept by every admitted step holds at the
end of every admitted run. -/
theorem invariant_run (Inv : σ → Prop)
    (hstep : ∀ state event, guard state event → Inv state → Inv (step state event))
    (hguarded : Guarded step guard state events) (hinv : Inv state) :
    Inv (run step state events) := by
  induction events generalizing state with
  | nil => exact hinv
  | cons event events ih => exact ih hguarded.2 (hstep _ _ hguarded.1 hinv)

/-- **The simulation rule.** If every admitted step is, through `view`, a step of an abstract
relation or none, then whatever a run leads to is reachable there. -/
theorem reaches_run {τ : Type} {next : τ → τ → Prop} (view : σ → τ) (Inv : σ → Prop)
    (hstep : ∀ state event, guard state event → Inv state → Inv (step state event))
    (hview : ∀ state event, guard state event → Inv state →
      next (view state) (view (step state event)) ∨ view (step state event) = view state)
    (hguarded : Guarded step guard state events) (hinv : Inv state) :
    Relation.ReflTransGen next (view state) (view (run step state events)) := by
  induction events generalizing state with
  | nil => exact .refl
  | cons event events ih =>
      have hlater := ih hguarded.2 (hstep _ _ hguarded.1 hinv)
      obtain hnext | hsame := hview _ _ hguarded.1 hinv
      · exact .head hnext hlater
      · rwa [hsame] at hlater

/-! ### What a run shows -/

/-- What every event shows in the state it is taken from, in order. -/
def trace {τ : Type} (step : σ → ε → σ) (emit : σ → ε → List τ) : σ → List ε → List τ
  | _, [] => []
  | state, event :: events => emit state event ++ trace step emit (step state event) events

theorem trace_append {τ : Type} {emit : σ → ε → List τ} (more : List ε) :
    trace step emit state (events ++ more)
      = trace step emit state events ++ trace step emit (run step state events) more := by
  induction events generalizing state with
  | nil => rfl
  | cons event events ih =>
      rw [List.cons_append, trace, trace, ih, List.append_assoc, run_cons]

/-- **The expansion rule.** If every admitted step comes to an admitted run of finer steps, so does every
admitted run. -/
theorem run_expand {τ δ : Type} {fine : τ → δ → τ} {allowed : τ → δ → Prop} (view : σ → τ)
    (expand : σ → ε → List δ)
    (hstep : ∀ state event, guard state event → Guarded fine allowed (view state) (expand state event)
      ∧ run fine (view state) (expand state event) = view (step state event))
    (hguarded : Guarded step guard state events) :
    Guarded fine allowed (view state) (trace step expand state events)
      ∧ run fine (view state) (trace step expand state events) = view (run step state events) := by
  induction events generalizing state with
  | nil => exact ⟨trivial, rfl⟩
  | cons event events ih =>
      obtain ⟨hfirst, hview⟩ := hstep state event hguarded.1
      obtain ⟨hlater, hrest⟩ := ih hguarded.2
      rw [trace, guarded_append, run_append, hview]
      exact ⟨⟨hfirst, hlater⟩, hrest⟩

end Run
