import OneBarrier.Proof.Ticks

/-!
# From replayed to live input

A run on recorded deltas replays them and has nothing left for the inputs after them. Its clock then
stands still, so it tracks the monotonic clock only as long as that stands still too.
-/

namespace OneBarrier.Interpose

open Wire Run

theorem length_recordedDeltas_le {env : Env} {files : Files} {recorded : List Int64}
    (hrecorded : recordedDeltas env files = some recorded) :
    recorded.length ≤ (files.deltas.getD []).length / 8 := by
  rw [recordedDeltas] at hrecorded
  split at hrecorded
  · rw [Option.some.injEq] at hrecorded
    rw [← hrecorded]
    cases hread : times ((files.deltas.getD []).length / 8) i64 (files.deltas.getD []) with
    | none => exact Nat.zero_le _
    | some read =>
        have hcount := ((Gives.any i64).times _).holds hread
        exact hcount.1.le
  · cases hrecorded

namespace Shim

/-- After every further event, virtual time has moved by what the monotonic clock has moved since the
last event before. -/
def Tracks (shim : Shim) (before after : List Call) : Prop :=
  ∀ (further later : List Call) (last reading : Int64), after = further ++ later →
    (shim.readings before).getLast? = some last →
      ((run Shim.step shim before).readings further).getLast? = some reading →
        ∃ clock clock', (run Shim.step shim before).clock = some clock
          ∧ (run Shim.step shim (before ++ further)).clock = some clock'
          ∧ clock'.now = clock.now + (reading - last)

/-- **The hand-over.** Over every run on a recorded delta log, once it has replayed the log: virtual
time tracks the monotonic clock exactly if that has not moved since the last replayed event. -/
theorem tracks_iff {env : Env} {files : Files} (hfiles : Reconstructs env files)
    (hdeltas : env.deltas = true) (realtime mono : Int64) (before after : List Call) :
    let recovered := Shim.start env realtime mono files
    (run Shim.step recovered before).requests = (files.deltas.getD []).length / 8 →
      (recovered.Tracks before after
        ↔ ∀ reading ∈ (run Shim.step recovered before).readings after,
          (recovered.readings before).getLast? = some reading) := by
  intro recovered hreplayed
  obtain ⟨clock, hclock, -, hholds⟩ := start_reconstructs hfiles realtime mono
  obtain ⟨recorded, hrecorded⟩ : ∃ recorded, recordedDeltas env files = some recorded := by
    rw [recordedDeltas, if_pos hdeltas]
    exact ⟨_, rfl⟩
  rw [hrecorded] at hholds
  have hzero : recovered.requests = 0 := by
    obtain ⟨_, -, -, hstart⟩ := start_of_vclock hfiles.1 realtime mono files
    exact congrArg Shim.requests hstart
  have hcount : (recovered.readings before).length = (files.deltas.getD []).length / 8 := by
    rw [← hreplayed, (run_clock hclock before).2.1, hzero, Nat.zero_add]
  have hall := length_recordedDeltas_le hrecorded
  -- Everything recorded has been replayed, so the further events add nothing.
  have hstill : ∀ further, (clock.after (recovered.readings (before ++ further))).now
      = (clock.after (recovered.readings before)).now := by
    intro further
    rw [Vclock.now_after hholds, Vclock.now_after hholds, readings_append, List.length_append,
      elapsed, elapsed, List.take_of_length_le (by omega), List.take_of_length_le (by omega)]
  constructor
  · intro htracks reading hreading
    have hsome : recovered.readings before ≠ [] := by
      intro hnil
      have hlong := hfiles.2 hdeltas
      rw [hnil, List.length_nil] at hcount
      omega
    have hlast := List.getLast?_eq_some_getLast hsome
    obtain ⟨earlier, rest, hsplit⟩ := List.append_of_mem hreading
    have hle : earlier.length + 1
        ≤ ((run Shim.step recovered before).readings after).length := by
      rw [hsplit, List.length_append, List.length_cons]
      omega
    obtain ⟨further, later, rfl, hfurther⟩ :=
      (run Shim.step recovered before).exists_split hle
    have hread : (run Shim.step recovered before).readings further = earlier ++ [reading] := by
      rw [readings_append, List.append_cons] at hsplit
      exact List.append_inj_left hsplit (by simpa using hfurther)
    obtain ⟨shown, shown', hshown, hshown', hnow⟩ := htracks further later _ reading rfl hlast
      (by rw [hread, List.getLast?_concat])
    rw [(run_clock hclock before).1, Option.some.injEq] at hshown
    rw [(run_clock hclock (before ++ further)).1, Option.some.injEq] at hshown'
    rw [← hshown, ← hshown', hstill, Int64.left_eq_add, Int64.sub_eq_iff_eq_add,
      Int64.zero_add] at hnow
    rw [hlast, hnow]
  · rintro hsame further later last reading rfl hlast hreading
    have hmem := List.mem_of_getLast? hreading
    have heq := hsame reading (by rw [readings_append]; exact List.mem_append_left _ hmem)
    rw [hlast, Option.some.injEq] at heq
    refine ⟨_, _, (run_clock hclock before).1, (run_clock hclock (before ++ further)).1, ?_⟩
    rw [hstill, heq, Int64.sub_self, Int64.add_zero]

/-- One recorded delta, one input that replays it, and one input after it. -/
def oneDelta : Files := { deltas := some (longLong 7) }

theorem reconstructs_oneDelta : Reconstructs { vclock := true, deltas := true } oneDelta :=
  ⟨rfl, fun _ => by decide⟩

/-- The monotonic clock has not moved between the two inputs. -/
theorem tracks_at_once :
    (Shim.start { vclock := true, deltas := true } 1782053569000000000 0 oneDelta).Tracks
      [.accept 5, .read 5 [1] 50] [.read 5 [2] 50] := by
  refine (tracks_iff reconstructs_oneDelta rfl 1782053569000000000 0 _ _ (by decide +kernel)).mpr
    fun reading hreading => ?_
  have hread : (run Shim.step
      (Shim.start { vclock := true, deltas := true } 1782053569000000000 0 oneDelta)
      [.accept 5, .read 5 [1] 50]).readings [.read 5 [2] 50] = [50] := by decide +kernel
  rw [hread, List.mem_singleton] at hreading
  rw [hreading]
  decide +kernel

/-- Eight nanoseconds pass, and the clock shows the same time. -/
theorem clock_stops_after_replay :
    ∃ files, Reconstructs { vclock := true, deltas := true } files
      ∧ (run Shim.step (Shim.start { vclock := true, deltas := true } 1782053569000000000 0 files)
          [.accept 5, .read 5 [1] 50]).requests = (files.deltas.getD []).length / 8
      ∧ ¬ (Shim.start { vclock := true, deltas := true } 1782053569000000000 0 files).Tracks
        [.accept 5, .read 5 [1] 50] [.read 5 [2] 58] := by
  refine ⟨oneDelta, reconstructs_oneDelta, by decide +kernel, fun htracks => ?_⟩
  obtain ⟨clock, clock', hclock, hclock', hnow⟩ :=
    htracks [.read 5 [2] 58] [] 50 58 rfl (by decide +kernel) (by decide +kernel)
  have hbefore : some clock.now = some 1782053569000000007 :=
    (congrArg (Option.map Vclock.now) hclock).symm.trans (by decide +kernel)
  have hafter : some clock'.now = some 1782053569000000007 :=
    (congrArg (Option.map Vclock.now) hclock').symm.trans (by decide +kernel)
  rw [Option.some.injEq] at hbefore hafter
  rw [hbefore, hafter] at hnow
  exact absurd hnow (by decide)

end Shim

end OneBarrier.Interpose
