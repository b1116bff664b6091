import Mathlib.Data.List.Basic

/-!
# Interleavings of tagged events

Events of several sources in one order. Two orders that agree source by source lead to the same state
if events of different sources commute wherever they can meet.
-/

namespace Interleave

variable {κ α σ : Type}

/-- The events of one source, in order. -/
def project [DecidableEq κ] (key : κ) (events : List (κ × α)) : List α :=
  (events.filter fun event => event.1 = key).map Prod.snd

/-- The two orders agree on every source. -/
def SameOrder [DecidableEq κ] (first second : List (κ × α)) : Prop :=
  ∀ key, project key first = project key second

/-- The state a list of events leads to. -/
def final (step : σ → α → σ) (state : σ) (events : List (κ × α)) : σ :=
  events.foldl (fun state event => step state event.2) state

variable {step : σ → α → σ} {first second : List (κ × α)} {key : κ} {event : α}

theorem final_append (state : σ) (first second : List (κ × α)) :
    final step state (first ++ second) = final step (final step state first) second :=
  List.foldl_append

/-- An event moves to the front past events it commutes with. -/
theorem final_move {Inv : σ → Prop} (hstep : ∀ state event, Inv state → Inv (step state event))
    {before : List (κ × α)}
    (hcommute : ∀ other ∈ before, ∀ state, Inv state →
      step (step state other.2) event = step (step state event) other.2)
    {state : σ} (hstate : Inv state) :
    step (final step state before) event = final step (step state event) before := by
  induction before generalizing state with
  | nil => rfl
  | cons other before ih =>
      have hrest := ih (fun later hlater => hcommute later (List.mem_cons_of_mem other hlater))
        (hstep state other.2 hstate)
      change step (final step (step state other.2) before) event
        = final step (step (step state event) other.2) before
      rw [hrest, hcommute other List.mem_cons_self state hstate]

section

variable [DecidableEq κ]

theorem project_append (first second : List (κ × α)) (key : κ) :
    project key (first ++ second) = project key first ++ project key second := by
  rw [project, List.filter_append, List.map_append]
  rfl

theorem project_cons_self (key : κ) (event : α) (events : List (κ × α)) :
    project key ((key, event) :: events) = event :: project key events := by
  rw [project, List.filter_cons_of_pos (by simp)]
  rfl

theorem project_cons_ne {key other : κ} (hother : other ≠ key) (event : α)
    (events : List (κ × α)) : project key ((other, event) :: events) = project key events := by
  rw [project, List.filter_cons_of_neg (by simpa using hother)]
  rfl

/-- The first event of a source, and what other sources do before it. -/
theorem exists_of_project_eq_cons {events : List (κ × α)} {rest : List α}
    (hproject : project key events = event :: rest) : ∃ before after,
      events = before ++ (key, event) :: after ∧ ∀ other ∈ before, other.1 ≠ key := by
  induction events with
  | nil => cases hproject
  | cons head events ih =>
      obtain ⟨source, value⟩ := head
      by_cases hsource : source = key
      · subst hsource
        rw [project_cons_self] at hproject
        obtain ⟨rfl, -⟩ := List.cons.inj hproject
        exact ⟨[], events, rfl, by simp⟩
      · rw [project_cons_ne hsource] at hproject
        obtain ⟨before, after, rfl, hbefore⟩ := ih hproject
        refine ⟨(source, value) :: before, after, rfl, ?_⟩
        intro other hother
        rcases List.mem_cons.mp hother with rfl | hother
        · exact hsource
        · exact hbefore other hother

/-- **Interleavings that agree source by source lead to the same state.** -/
theorem final_eq_of_sameOrder {Inv : σ → Prop}
    (hstep : ∀ state event, Inv state → Inv (step state event))
    (hcommute : ∀ event ∈ first, ∀ other ∈ second, event.1 ≠ other.1 → ∀ state, Inv state →
      step (step state other.2) event.2 = step (step state event.2) other.2)
    (hsame : SameOrder first second) {state : σ} (hstate : Inv state) :
    final step state second = final step state first := by
  induction first generalizing second state with
  | nil =>
      cases second with
      | nil => rfl
      | cons head second =>
          have hproject := hsame head.1
          rw [project_cons_self] at hproject
          cases hproject
  | cons head first ih =>
      obtain ⟨key, event⟩ := head
      have hproject := hsame key
      rw [project_cons_self] at hproject
      obtain ⟨before, after, rfl, hbefore⟩ := exists_of_project_eq_cons hproject.symm
      have hrest : SameOrder first (before ++ after) := by
        intro other
        have hother := hsame other
        rw [project_append] at hother ⊢
        by_cases hkey : key = other
        · subst hkey
          have hnone : project key before = [] := by
            rw [project, List.filter_eq_nil_iff.mpr (by simpa using hbefore), List.map_nil]
          rw [project_cons_self, hnone, project_cons_self] at hother
          rw [hnone]
          exact (List.cons.inj hother).2
        · rwa [project_cons_ne hkey, project_cons_ne hkey] at hother
      have hmove : step (final step state before) event = final step (step state event) before := by
        refine final_move hstep (fun other hother => ?_) hstate
        exact hcommute (key, event) List.mem_cons_self other (List.mem_append_left _ hother)
          (hbefore other hother).symm
      have hlater : final step (step state event) (before ++ after)
          = final step (step state event) first := by
        refine ih (fun early hearly other hother => ?_) hrest (hstep state event hstate)
        refine hcommute early (List.mem_cons_of_mem _ hearly) other ?_
        rcases List.mem_append.mp hother with hother | hother
        · exact List.mem_append_left _ hother
        · exact List.mem_append_right _ (List.mem_cons_of_mem _ hother)
      calc final step state (before ++ (key, event) :: after)
          = final step (step (final step state before) event) after := final_append _ _ _
        _ = final step (final step (step state event) before) after := by rw [hmove]
        _ = final step (step state event) (before ++ after) := (final_append _ _ _).symm
        _ = final step (step state event) first := hlater

end

end Interleave
