import Mathlib.Data.List.Basic

/-!
# Exactly-once machines and their journals

A machine that recognizes the inputs it has already taken can be fed the same input any number of
times. Its durable form is a checkpoint and a log of inputs, and recovery feeds the log to the
checkpoint. Suppression is what makes the two halves independent of each other: a log whose inputs
the checkpoint already covers is read back without effect, so a checkpoint may be installed at any
time and the log cleared later, or never.
-/

namespace Journal

/-- A deterministic machine that suppresses inputs it has already taken. Taking an input covers it,
and what is covered stays covered. -/
structure Machine (σ α ω : Type) where
  fresh : σ → α → Prop
  decidableFresh : ∀ state input, Decidable (fresh state input)
  apply : σ → α → σ
  output : σ → α → ω
  not_fresh_apply_self : ∀ {state input}, fresh state input → ¬ fresh (apply state input) input
  not_fresh_apply : ∀ {state input other},
    fresh state input → ¬ fresh state other → ¬ fresh (apply state input) other

namespace Machine

variable {σ α ω : Type} (machine : Machine σ α ω)

instance (state : σ) (input : α) : Decidable (machine.fresh state input) :=
  machine.decidableFresh state input

/-- Take an input, unless it is covered. -/
def deliver (state : σ) (input : α) : σ :=
  if machine.fresh state input then machine.apply state input else state

/-- Take a list of inputs in order. -/
def deliverAll (state : σ) (inputs : List α) : σ := inputs.foldl machine.deliver state

/-- How many inputs of a list are taken rather than suppressed. -/
def taken : σ → List α → Nat
  | _, [] => 0
  | state, input :: inputs =>
      (if machine.fresh state input then 1 else 0) + taken (machine.deliver state input) inputs

/-- The inputs of a list that are taken rather than suppressed. -/
def accepted : σ → List α → List α
  | _, [] => []
  | state, input :: inputs =>
      if machine.fresh state input then input :: accepted (machine.deliver state input) inputs
      else accepted (machine.deliver state input) inputs

variable {machine} {state : σ} {input other : α} {inputs : List α}

theorem deliver_of_fresh (hfresh : machine.fresh state input) :
    machine.deliver state input = machine.apply state input := if_pos hfresh

theorem deliver_of_not_fresh (hcovered : ¬ machine.fresh state input) :
    machine.deliver state input = state := if_neg hcovered

@[simp]
theorem deliverAll_nil : machine.deliverAll state [] = state := rfl

@[simp]
theorem deliverAll_cons :
    machine.deliverAll state (input :: inputs)
      = machine.deliverAll (machine.deliver state input) inputs := rfl

@[simp]
theorem deliverAll_append (more : List α) :
    machine.deliverAll state (inputs ++ more)
      = machine.deliverAll (machine.deliverAll state inputs) more := List.foldl_append

theorem not_fresh_deliver_self : ¬ machine.fresh (machine.deliver state input) input := by
  by_cases hfresh : machine.fresh state input
  · rw [deliver_of_fresh hfresh]
    exact machine.not_fresh_apply_self hfresh
  · rwa [deliver_of_not_fresh hfresh]

theorem not_fresh_deliver (hcovered : ¬ machine.fresh state other) :
    ¬ machine.fresh (machine.deliver state input) other := by
  by_cases hfresh : machine.fresh state input
  · rw [deliver_of_fresh hfresh]
    exact machine.not_fresh_apply hfresh hcovered
  · rwa [deliver_of_not_fresh hfresh]

theorem not_fresh_deliverAll (hcovered : ¬ machine.fresh state other) :
    ¬ machine.fresh (machine.deliverAll state inputs) other := by
  induction inputs generalizing state with
  | nil => exact hcovered
  | cons input inputs ih => exact ih (not_fresh_deliver hcovered)

/-- Every input of a delivered list is covered afterwards. -/
theorem not_fresh_deliverAll_of_mem (hmem : input ∈ inputs) :
    ¬ machine.fresh (machine.deliverAll state inputs) input := by
  induction inputs generalizing state with
  | nil => simp at hmem
  | cons head tail ih =>
      rw [deliverAll_cons]
      rcases List.mem_cons.mp hmem with rfl | htail
      · exact not_fresh_deliverAll not_fresh_deliver_self
      · exact ih htail

/-- Covered inputs are delivered without effect. -/
theorem deliverAll_of_not_fresh (hcovered : ∀ input ∈ inputs, ¬ machine.fresh state input) :
    machine.deliverAll state inputs = state := by
  induction inputs with
  | nil => rfl
  | cons head tail ih =>
      rw [deliverAll_cons, deliver_of_not_fresh (hcovered head List.mem_cons_self)]
      exact ih fun input hinput => hcovered input (List.mem_cons_of_mem _ hinput)

theorem taken_append (more : List α) :
    machine.taken state (inputs ++ more)
      = machine.taken state inputs + machine.taken (machine.deliverAll state inputs) more := by
  induction inputs generalizing state with
  | nil => simp [taken]
  | cons head tail ih => rw [List.cons_append, taken, taken, ih, deliverAll_cons, Nat.add_assoc]

theorem length_accepted : (machine.accepted state inputs).length = machine.taken state inputs := by
  induction inputs generalizing state with
  | nil => rfl
  | cons head tail ih =>
      rw [accepted, taken, ← ih]
      split
      · exact Nat.add_comm _ 1
      · exact (Nat.zero_add _).symm

theorem taken_of_not_fresh (hcovered : ∀ input ∈ inputs, ¬ machine.fresh state input) :
    machine.taken state inputs = 0 := by
  induction inputs with
  | nil => rfl
  | cons head tail ih =>
      have hhead := hcovered head List.mem_cons_self
      rw [taken, if_neg hhead, deliver_of_not_fresh hhead, Nat.zero_add]
      exact ih fun input hinput => hcovered input (List.mem_cons_of_mem _ hinput)

/-- Delivering a list a second time changes nothing. -/
theorem deliverAll_deliverAll :
    machine.deliverAll (machine.deliverAll state inputs) inputs
      = machine.deliverAll state inputs :=
  deliverAll_of_not_fresh fun _ => not_fresh_deliverAll_of_mem

end Machine

/-- A checkpoint and the inputs logged since some time before it. -/
structure Store (σ α : Type) where
  checkpoint : σ
  log : List α

namespace Store

variable {σ α ω : Type} {machine : Machine σ α ω} {store : Store σ α}

/-- Recovery: the checkpoint, then the log. -/
def recovered (machine : Machine σ α ω) (store : Store σ α) : σ :=
  machine.deliverAll store.checkpoint store.log

/-- The logged inputs the checkpoint does not cover: what recovery takes. -/
def pending (machine : Machine σ α ω) (store : Store σ α) : Nat :=
  machine.taken store.checkpoint store.log

theorem pending_append {input : α} (hfresh : machine.fresh (recovered machine store) input) :
    pending machine { store with log := store.log ++ [input] } = pending machine store + 1 := by
  rw [pending, Machine.taken_append, Machine.taken, Machine.taken]
  rw [recovered] at hfresh
  rw [if_pos hfresh]
  rfl

theorem pending_install :
    pending machine { store with checkpoint := recovered machine store } = 0 :=
  Machine.taken_of_not_fresh fun _ => Machine.not_fresh_deliverAll_of_mem

/-- Logging one more input delivers it to the recovered state. -/
theorem recovered_append (input : α) :
    recovered machine { store with log := store.log ++ [input] }
      = machine.deliver (recovered machine store) input := by
  simp [recovered]

/-- Installing the recovered state as the checkpoint, in front of the log it was recovered from,
leaves the recovered state as it was: every logged input is covered. -/
theorem recovered_install :
    recovered machine { store with checkpoint := recovered machine store }
      = recovered machine store :=
  Machine.deliverAll_deliverAll

@[simp]
theorem recovered_clear (state : σ) : recovered machine ⟨state, []⟩ = state := rfl

end Store

end Journal
