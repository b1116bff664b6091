import Mathlib.Data.List.Basic

/-!
# Linearizability

A trace records when calls are made and when they return. An order of calls linearizes it if it has
every call that returned, with the output it returned, and otherwise only calls that were made; if
it never reverses a call that returned before another was made; and if the outputs are those of the
sequential machine taking the calls in that order. The order is built as the system runs: a call is
put at its end somewhere between being made and returning.
-/

namespace Linear

inductive Action (α ω : Type) where
  | invoke (call : Nat) (input : α)
  | respond (call : Nat) (output : ω)
  deriving DecidableEq

/-- A call with its input and its output. -/
structure Taken (α ω : Type) where
  call : Nat
  input : α
  output : ω
  deriving DecidableEq

variable {σ α ω : Type}

/-- The state a list of calls leads to. -/
def final (step : σ → α → σ × ω) (state : σ) (order : List (Taken α ω)) : σ :=
  order.foldl (fun state taken => (step state taken.input).1) state

/-- Every output is the sequential one. -/
def Legal (step : σ → α → σ × ω) : σ → List (Taken α ω) → Prop
  | _, [] => True
  | state, taken :: order =>
      taken.output = (step state taken.input).2 ∧ Legal step (step state taken.input).1 order

structure Linearizes (step : σ → α → σ × ω) (init : σ) (trace : List (Action α ω))
    (order : List (Taken α ω)) : Prop where
  nodup : (order.map Taken.call).Nodup
  invoked : ∀ taken ∈ order, Action.invoke taken.call taken.input ∈ trace
  completed : ∀ call output, Action.respond call output ∈ trace →
    ∃ taken ∈ order, taken.call = call ∧ taken.output = output
  realTime : ∀ earlier output later input,
    [Action.respond earlier output, Action.invoke later input].Sublist trace →
      later ∈ order.map Taken.call → [earlier, later].Sublist (order.map Taken.call)
  legal : Legal step init order

variable {step : σ → α → σ × ω} {init : σ} {trace : List (Action α ω)}
  {order : List (Taken α ω)}

theorem legal_append {state : σ} {more : List (Taken α ω)} :
    Legal step state (order ++ more)
      ↔ Legal step state order ∧ Legal step (final step state order) more := by
  induction order generalizing state with
  | nil => simp [Legal, final]
  | cons taken order ih => simp [Legal, final, ih, and_assoc]

theorem pair_sublist_concat {β : Type} {first second last : β} {list : List β}
    (hpair : [first, second].Sublist (list ++ [last])) :
    [first, second].Sublist list ∨ (first ∈ list ∧ second = last) := by
  obtain ⟨front, back, hsplit, hfront, hback⟩ := List.sublist_append_iff.mp hpair
  rcases List.sublist_singleton.mp hback with rfl | rfl
  · rw [List.append_nil] at hsplit
    rw [hsplit]
    exact .inl hfront
  · have hlists : [first] ++ [second] = front ++ [last] := hsplit
    obtain ⟨rfl, hsecond⟩ := List.append_inj' hlists rfl
    exact .inr ⟨List.singleton_sublist.mp hfront, by simpa using hsecond⟩

theorem linearizes_nil : Linearizes step init [] [] where
  nodup := List.nodup_nil
  invoked := by simp
  completed := by simp
  realTime := by simp
  legal := trivial

namespace Linearizes

/-- A new call is made. -/
theorem invoke (hlinear : Linearizes step init trace order) {call : Nat} (input : α)
    (hnew : call ∉ order.map Taken.call) :
    Linearizes step init (trace ++ [.invoke call input]) order where
  nodup := hlinear.nodup
  invoked := fun taken htaken => List.mem_append_left _ (hlinear.invoked taken htaken)
  completed := by
    intro other output hrespond
    refine hlinear.completed other output ?_
    simpa using hrespond
  realTime := by
    intro earlier output later other hpair hlater
    rcases pair_sublist_concat hpair with hpair | ⟨-, hsame⟩
    · exact hlinear.realTime earlier output later other hpair hlater
    · obtain ⟨rfl, -⟩ := Action.invoke.inj hsame
      exact absurd hlater hnew
  legal := hlinear.legal

/-- A call already in the order returns. -/
theorem respond (hlinear : Linearizes step init trace order) {taken : Taken α ω}
    (htaken : taken ∈ order) :
    Linearizes step init (trace ++ [.respond taken.call taken.output]) order where
  nodup := hlinear.nodup
  invoked := fun other hother => List.mem_append_left _ (hlinear.invoked other hother)
  completed := by
    intro call output hrespond
    rcases List.mem_append.mp hrespond with hold | hnew
    · exact hlinear.completed call output hold
    · obtain ⟨rfl, rfl⟩ := Action.respond.inj (List.mem_singleton.mp hnew)
      exact ⟨taken, htaken, rfl, rfl⟩
  realTime := by
    intro earlier output later input hpair hlater
    rcases pair_sublist_concat hpair with hpair | ⟨-, hsame⟩
    · exact hlinear.realTime earlier output later input hpair hlater
    · cases hsame
  legal := hlinear.legal

/-- A call that was made, and is not in the order yet, takes its place at the end. -/
theorem take (hlinear : Linearizes step init trace order) {taken : Taken α ω}
    (hinvoked : Action.invoke taken.call taken.input ∈ trace)
    (hnew : taken.call ∉ order.map Taken.call)
    (houtput : taken.output = (step (final step init order) taken.input).2) :
    Linearizes step init trace (order ++ [taken]) where
  nodup := by
    rw [List.map_append]
    refine List.nodup_append.mpr ⟨hlinear.nodup, by simp, ?_⟩
    intro call hcall last hlast hsame
    obtain rfl : last = taken.call := by simpa using hlast
    exact hnew (hsame ▸ hcall)
  invoked := by
    intro other hother
    rcases List.mem_append.mp hother with hold | hlast
    · exact hlinear.invoked other hold
    · rwa [List.mem_singleton.mp hlast]
  completed := by
    intro call output hrespond
    obtain ⟨other, hother, hfields⟩ := hlinear.completed call output hrespond
    exact ⟨other, List.mem_append_left _ hother, hfields⟩
  realTime := by
    intro earlier output later input hpair hlater
    rw [List.map_append] at hlater ⊢
    rcases List.mem_append.mp hlater with hold | hlast
    · exact (hlinear.realTime earlier output later input hpair hold).trans
        (List.sublist_append_left _ _)
    · obtain rfl : later = taken.call := by simpa using hlast
      -- what returned before this call was made is already in the order
      have hmem : Action.respond earlier output ∈ trace := hpair.subset List.mem_cons_self
      obtain ⟨other, hother, rfl, -⟩ := hlinear.completed earlier output hmem
      have hfront : [other.call].Sublist (order.map Taken.call) :=
        List.singleton_sublist.mpr (List.mem_map_of_mem hother)
      exact hfront.append (List.Sublist.refl _)
  legal := legal_append.mpr ⟨hlinear.legal, houtput, trivial⟩

end Linearizes

end Linear
