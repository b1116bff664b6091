import OneBarrier.Ticks
import OneBarrier.Proof.Segments

/-!
# Resuming at a checkpoint

The tick file says how far virtual time had come, but not how many deltas made it so. A run that
resumes after a checkpoint replays the deltas from the first one, so it shows the recorded times
exactly if the deltas after the checkpoint begin like the deltas of the whole run.
-/

namespace OneBarrier.Interpose

open Wire Run

/-! ### Sums of advances -/

theorem total_take_succ {advances : List Int64} {i : Nat} (hi : i < advances.length) :
    total (advances.take (i + 1)) = total (advances.take i) + advances[i].toInt := by
  rw [List.take_succ_eq_append_getElem hi, total_append]
  simp [total]

/-- Two lists of advances come to the same times throughout exactly if one begins with the other. -/
theorem totals_eq_iff {first second : List Int64} (hle : first.length ≤ second.length) :
    (∀ i ≤ first.length,
        Int64.ofInt (total (first.take i)) = Int64.ofInt (total (second.take i)))
      ↔ first <+: second := by
  constructor
  · intro hsame
    rw [List.prefix_iff_eq_take]
    apply List.ext_getElem
    · rw [List.length_take, Nat.min_eq_left hle]
    · intro i hfirst hsecond
      have hnow := hsame i hfirst.le
      have hnext := hsame (i + 1) hfirst
      have hi : i < second.length := hfirst.trans_le hle
      rw [total_take_succ hfirst, total_take_succ hi, Int64.ofInt_add, Int64.ofInt_add, hnow,
        Int64.ofInt_toInt, Int64.ofInt_toInt, Int64.add_right_inj] at hnext
      rw [hnext, List.getElem_take]
  · rintro ⟨later, rfl⟩ i hi
    rw [List.take_append_of_le_length hi]

theorem spans_fixed_eq (last : Int64) (readings : List Int64) :
    spans false last readings = List.replicate readings.length tickNs := by
  induction readings generalizing last with
  | nil => rfl
  | cons mono readings ih => rw [spans, span_fixed, ih, List.length_cons, List.replicate_succ]

namespace Vclock

theorem now_after_live {deltas : Bool} {clock : Vclock} (hlive : clock.Live deltas)
    (readings : List Int64) : (clock.after readings).now
      = clock.now + Int64.ofInt (total (spans deltas clock.lastMonoNs readings)) := by
  induction readings generalizing clock with
  | nil => exact (Int64.add_zero _).symm
  | cons mono readings ih =>
      obtain ⟨hnext, hnow, hspans⟩ := tick_live hlive mono
      have hsum : total (spans deltas clock.lastMonoNs (mono :: readings))
          = (span deltas clock.lastMonoNs mono).toInt + total (spans deltas mono readings) := rfl
      change ((clock.tick mono).after readings).now = _
      rw [ih hnext, hnow, hspans, hsum, Int64.ofInt_add, Int64.ofInt_toInt, Int64.add_assoc]

end Vclock

/-! ### The tick file -/

namespace Ticking

theorem shim_step (state : Ticking) (call : Call) :
    (state.step call).shim = state.shim.step call := by
  cases call with
  | accept fd => rfl
  | close fd => rfl
  | read fd input mono =>
      rw [step]
      split <;> rfl

theorem shim_run (state : Ticking) (calls : List Call) :
    (run Ticking.step state calls).shim = run Shim.step state.shim calls := by
  induction calls generalizing state with
  | nil => rfl
  | cons call calls ih => rw [run_cons, run_cons, ih, shim_step]

/-- The file holds the tick count of the clock. -/
def Persisted (state : Ticking) : Prop :=
  ∃ clock file, state.shim.clock = some clock ∧ state.ticks = some file
    ∧ loadTicks (some file) = clock.ticks

theorem loadTicks_pwriteTicks (ticks : Int64) (file : Bytes) :
    loadTicks (some (pwriteTicks ticks file)) = ticks := by
  rw [loadTicks, pwriteTicks, Option.getD_some, longLong, (i64_exact ticks).reads]
  rfl

theorem Persisted.step {state : Ticking} (hpersisted : state.Persisted) (call : Call) :
    (state.step call).Persisted := by
  obtain ⟨clock, file, hclock, hticks, hload⟩ := hpersisted
  obtain ⟨hnext, -, -⟩ := Shim.step_clock hclock call
  cases call with
  | accept fd => exact ⟨_, file, hnext, hticks, hload⟩
  | close fd => exact ⟨_, file, hnext, hticks, hload⟩
  | read fd input mono =>
      rw [Ticking.step]
      cases hcaptures : state.shim.captures fd input with
      | none =>
          rw [Shim.capture_of_none mono hcaptures]
          exact ⟨clock, file, hclock, hticks, hload⟩
      | some connId =>
          rw [hnext, hticks]
          exact ⟨_, _, hnext, rfl, loadTicks_pwriteTicks _ _⟩

theorem Persisted.run {state : Ticking} (hpersisted : state.Persisted) (calls : List Call) :
    (run Ticking.step state calls).Persisted := by
  induction calls generalizing state with
  | nil => exact hpersisted
  | cons call calls ih => exact ih (hpersisted.step call)

theorem start_of_clock {env : Env} {realtime mono : Int64} {files : Files} {clock : Vclock}
    (hclock : (Shim.start env realtime mono files).clock = some clock) (ticks : Option Bytes) :
    let started := Ticking.start env realtime mono files ticks
    started.shim.clock = some { clock with ticks := loadTicks ticks }
      ∧ started.shim.files = (Shim.start env realtime mono files).files
      ∧ started.shim.requests = (Shim.start env realtime mono files).requests
      ∧ started.ticks = some (ticks.getD []) := by
  intro started
  simp only [started, start]
  rw [hclock]
  exact ⟨rfl, rfl, rfl, rfl⟩

end Ticking

/-! ### Starting points -/

theorem vclockInit_base (env : Env) (realtime mono : Int64) (files : Files) :
    (vclockInit env realtime mono files).1.baseNs = (initBase realtime files).1 := by
  rw [vclockInit]
  cases env.deltas with
  | false => rfl
  | true =>
      simp only [if_true, initDeltas]
      split <;> rfl

namespace Vclock

theorem baseNs_tick (clock : Vclock) (mono : Int64) : (clock.tick mono).baseNs = clock.baseNs := by
  simp only [tick, advance, delta]
  cases clock.mode with
  | fixed => rfl
  | record => rfl
  | replay =>
      dsimp only
      split <;> rfl

theorem baseNs_after (clock : Vclock) (readings : List Int64) :
    (clock.after readings).baseNs = clock.baseNs := by
  induction readings generalizing clock with
  | nil => rfl
  | cons mono readings ih => exact (ih _).trans (clock.baseNs_tick mono)

end Vclock

namespace Shim

/-- There is a point in the run for every number of events. -/
theorem exists_split (shim : Shim) {calls : List Call} {count : Nat}
    (hcount : count ≤ (shim.readings calls).length) :
    ∃ between later, calls = between ++ later ∧ (shim.readings between).length = count := by
  induction calls generalizing shim count with
  | nil => exact ⟨[], [], rfl, (Nat.le_zero.mp hcount).symm⟩
  | cons call calls ih =>
      have hone : shim.readings (call :: calls)
          = shim.readings [call] ++ (shim.step call).readings calls :=
        readings_append shim [call] calls
      by_cases hzero : count = 0
      · exact ⟨[], call :: calls, rfl, hzero.symm⟩
      · have hfirst : (shim.readings [call]).length ≤ 1 := by
          cases call with
          | accept fd => exact Nat.zero_le 1
          | close fd => exact Nat.zero_le 1
          | read fd input mono =>
              rw [readings]
              split
              · exact Nat.le_refl 1
              · exact Nat.zero_le 1
        rw [hone, List.length_append] at hcount
        obtain ⟨between, later, rfl, hbetween⟩ :=
          @ih (shim.step call) (count - (shim.readings [call]).length) (by omega)
        refine ⟨call :: between, later, rfl, ?_⟩
        have hsplit : shim.readings (call :: between)
            = shim.readings [call] ++ (shim.step call).readings between :=
          readings_append shim [call] between
        rw [hsplit, List.length_append, hbetween]
        omega

/-- Inputs on one connection. -/
def inputs (count : Nat) : List Call := .accept 0 :: List.replicate count (.read 0 [0] 0)

theorem length_readings_inputs (shim : Shim) (count : Nat) :
    (shim.readings (inputs count)).length = count := by
  have hreads : ∀ shim : Shim, (shim.connIdOf 0).isSome →
      (shim.readings (List.replicate count (.read 0 [0] 0))).length = count := by
    induction count with
    | zero => exact fun _ _ => rfl
    | succ count ih =>
        intro shim hconn
        obtain ⟨connId, hconnId⟩ := Option.isSome_iff_exists.mp hconn
        have hcaptures : shim.captures 0 [0] = some connId := by
          rw [captures, if_neg (by decide), hconnId]
        have hsame : (shim.step (.read 0 [0] 0)).connIdOf = shim.connIdOf := by
          rw [step, capture, hcaptures]
        rw [List.replicate_succ, readings, hcaptures, Option.isSome_some, if_pos rfl,
          List.length_cons, ih _ (hsame ▸ hconn)]
  refine hreads (shim.step (.accept 0)) ?_
  rw [step, if_neg (by decide)]
  simp

end Shim

/-! ### The live run and the resumed one -/

namespace Ticking

variable {env : Env} {files : Files} {realtime mono : Int64} {ticks : Option Bytes}

theorem persisted_start (ticks : Option Bytes) {clock : Vclock}
    (hclock : (Shim.start env realtime mono files).clock = some clock) :
    (Ticking.start env realtime mono files ticks).Persisted := by
  obtain ⟨hstarted, -, -, hfile⟩ := start_of_clock hclock ticks
  exact ⟨_, _, hstarted, hfile, rfl⟩

theorem start_base (hvclock : env.vclock = true) {clock : Vclock}
    (hclock : (Shim.start env realtime mono files).clock = some clock) :
    clock.baseNs = (initBase realtime files).1 := by
  obtain ⟨opened, hfile, -, hstart⟩ := Shim.start_of_vclock hvclock realtime mono files
  rw [hstart, Option.some.injEq] at hclock
  rw [← hclock, vclockInit_base, initBase, initBase, hfile]
  split <;> rfl

theorem requests_run (hvclock : env.vclock = true) (calls : List Call) :
    let started := Ticking.start env realtime mono files ticks
    (run Ticking.step started calls).shim.requests = (started.shim.readings calls).length := by
  intro started
  obtain ⟨opened, -, -, hstart⟩ := Shim.start_of_vclock hvclock realtime mono files
  obtain ⟨hstarted, -, hsame, -⟩ := start_of_clock (congrArg Shim.clock hstart) ticks
  have hzero : started.shim.requests = 0 := hsame.trans (congrArg Shim.requests hstart)
  rw [shim_run, (Shim.run_clock hstarted calls).2.1, hzero, Nat.zero_add]

/-- The clock of a live run and its tick file. -/
theorem run_live (hlive : Shim.IsLive env files) (realtime mono : Int64) (ticks : Option Bytes)
    (calls : List Call) :
    let live := Ticking.start env realtime mono files ticks
    ∃ clock file, (run Ticking.step live calls).shim.clock = some clock
      ∧ (run Ticking.step live calls).ticks = some file ∧ loadTicks (some file) = clock.ticks
      ∧ clock.baseNs = (initBase realtime files).1
      ∧ clock.now = (initBase realtime files).1 + loadTicks ticks
        + Int64.ofInt (total (spans env.deltas mono (live.shim.readings calls))) := by
  intro live
  obtain ⟨opened, hopened, hmode, -, hspans, -, -⟩ := Shim.start_live hlive realtime mono
  obtain ⟨hstarted, -, -, -⟩ := start_of_clock hopened ticks
  obtain ⟨clock, file, hclock, hfile, hload⟩ := (persisted_start ticks hopened).run calls
  have hrun := (Shim.run_clock hstarted calls).1
  rw [← shim_run, hclock, Option.some.injEq] at hrun
  have hstill : Vclock.Live env.deltas { opened with ticks := loadTicks ticks } := hmode
  have hbase := start_base hlive.1 hopened
  refine ⟨clock, file, hclock, hfile, hload, ?_, ?_⟩
  · rw [hrun, Vclock.baseNs_after]
    exact hbase
  · rw [hrun, Vclock.now_after_live hstill, hspans, Vclock.now, hbase]

/-- What a live run leaves for the runs after it. -/
theorem files_live (hlive : Shim.IsLive env files) (realtime mono : Int64) (ticks : Option Bytes)
    (calls : List Call) :
    let live := Ticking.start env realtime mono files ticks
    (∀ realtime', (initBase realtime' (run Ticking.step live calls).shim.files).1
        = (initBase realtime files).1)
      ∧ (env.deltas = true → (run Ticking.step live calls).shim.files.deltas
        = some ((spans true mono (live.shim.readings calls)).flatMap longLong)) := by
  intro live
  obtain ⟨opened, hopened, hmode, -, hspans, hbase, hempty⟩ := Shim.start_live hlive realtime mono
  obtain ⟨hclock, hfiles, -, -⟩ := start_of_clock hopened ticks
  refine ⟨fun realtime' => Shim.initBase_files realtime realtime' ?_, fun henv => ?_⟩
  · rw [shim_run, (Shim.run_clock hclock calls).2.2, hfiles, hbase]
  · have hrecord : opened.mode = .record := by rw [hmode, henv, if_pos rfl]
    rw [henv] at hspans
    have hdeltas := Shim.run_deltas hclock hrecord (hfiles ▸ hempty henv) calls
    rw [List.nil_append] at hdeltas
    rw [shim_run, hdeltas]
    exact congrArg (fun advances => some (List.flatMap longLong advances)) (hspans _)

theorem spans_take (deltas : Bool) (last : Int64) (first second : List Int64) :
    (spans deltas last (first ++ second)).take first.length = spans deltas last first := by
  obtain ⟨last', happend⟩ := spans_append deltas last first second
  rw [happend, List.take_left' (length_spans deltas last first)]

/-- The advances that a run on the files of a live one takes, as long as there are recorded ones:
those of the live run from its first event on. -/
theorem now_resumed {recorded : List Int64} {readings : List Int64}
    (hvclock : env.vclock = true) {clock : Vclock}
    (hclock : (Shim.start env realtime mono files).clock = some clock)
    (hrecorded : if env.deltas then files.deltas = some (recorded.flatMap longLong)
      else recorded = List.replicate recorded.length tickNs)
    (hle : readings.length ≤ recorded.length) (offset : Int64) :
    (({ clock with ticks := offset } : Vclock).after readings).now
      = clock.baseNs + offset + Int64.ofInt (total (recorded.take readings.length)) := by
  cases henv : env.deltas with
  | false =>
      obtain ⟨opened, -, -, hstart⟩ := Shim.start_of_vclock hvclock realtime mono files
      rw [hstart, Option.some.injEq] at hclock
      rw [henv, if_neg (by decide)] at hrecorded
      have hfixed : Vclock.Live false { clock with ticks := offset } := by
        rw [← hclock, vclockInit, henv]
        rfl
      rw [Vclock.now_after_live hfixed, spans_fixed_eq, hrecorded, List.take_replicate,
        Nat.min_eq_left hle]
      rfl
  | true =>
      rw [henv, if_pos rfl] at hrecorded
      cases readings with
      | nil => exact (Int64.add_zero _).symm
      | cons reading readings =>
          have hlong : 8 ≤ (files.deltas.getD []).length := by
            rw [hrecorded, Option.getD_some, Shim.length_flatMap_longLong]
            rw [List.length_cons] at hle
            omega
          have hreplays : recordedDeltas env files = some recorded := by
            rw [recordedDeltas, henv, if_pos rfl, hrecorded, Option.getD_some,
              Shim.length_flatMap_longLong, Nat.mul_div_cancel_left _ (by decide),
              Shim.times_longLong]
            rfl
          obtain ⟨opened, hopened, -, hholds⟩ :=
            Shim.start_reconstructs ⟨hvclock, fun _ => hlong⟩ realtime mono
          rw [hclock, Option.some.injEq] at hopened
          rw [← hopened, hreplays] at hholds
          have hresumed : Vclock.Holds { clock with ticks := offset } (some recorded) := hholds
          rw [Vclock.now_after hresumed]
          rfl

/-- A recovery on the tick file as a checkpoint left it, and on the base and the deltas of the whole
run, shows the recorded times after the events that follow the checkpoint. -/
def Resumes (env : Env) (live : Ticking) (before after : List Call) : Prop :=
  ∀ (realtime mono : Int64) (between later calls : List Call), after = between ++ later →
    let recovered := Ticking.start env realtime mono
      (run Ticking.step live (before ++ after)).shim.files (run Ticking.step live before).ticks
    (run Ticking.step live before).shim.requests + (run Ticking.step recovered calls).shim.requests
        = (run Ticking.step live (before ++ between)).shim.requests →
      Shim.SameTime (run Ticking.step live (before ++ between)).shim
        (run Ticking.step recovered calls).shim

theorem sameTime_iff (hlive : Shim.IsLive env files) (before between later : List Call)
    (realtime' mono' : Int64) (calls : List Call) :
    let live := Ticking.start env realtime mono files ticks
    let advances := spans env.deltas mono (live.shim.readings (before ++ (between ++ later)))
    let count := (live.shim.readings before).length
    let fed := ((run Ticking.step live before).shim.readings between).length
    let recovered := Ticking.start env realtime' mono'
      (run Ticking.step live (before ++ (between ++ later))).shim.files
      (run Ticking.step live before).ticks
    (run Ticking.step recovered calls).shim.requests = fed →
      (Shim.SameTime (run Ticking.step live (before ++ between)).shim
          (run Ticking.step recovered calls).shim
        ↔ Int64.ofInt (total ((advances.drop count).take fed))
          = Int64.ofInt (total (advances.take fed))) := by
  intro live advances count fed recovered hfed
  let files' := (run Ticking.step live (before ++ (between ++ later))).shim.files
  obtain ⟨clock, file, -, hfile, hload, hbase, hnow⟩ := run_live hlive realtime mono ticks before
  obtain ⟨shown, -, hshown, -, -, -, hnow'⟩ :=
    run_live hlive realtime mono ticks (before ++ between)
  obtain ⟨hsame, hdeltas⟩ :=
    files_live hlive realtime mono ticks (before ++ (between ++ later))
  -- The live run: the advances up to the checkpoint, and the next `fed` ones.
  have hwhole : live.shim.readings (before ++ (between ++ later))
      = live.shim.readings (before ++ between)
        ++ (run Shim.step live.shim (before ++ between)).readings later := by
    rw [← List.append_assoc, Shim.readings_append]
  have hbefore : spans env.deltas mono (live.shim.readings before) = advances.take count := by
    simp only [advances, count]
    rw [Shim.readings_append, spans_take]
  have hbetween : spans env.deltas mono (live.shim.readings (before ++ between))
      = advances.take (count + fed) := by
    simp only [advances, count, fed]
    rw [hwhole, shim_run, ← List.length_append, ← Shim.readings_append, spans_take]
  have hlive' : shown.now = clock.now + Int64.ofInt (total ((advances.drop count).take fed)) := by
    rw [hnow', hnow, hbetween, hbefore, List.take_add, total_append, Int64.ofInt_add,
      Int64.add_assoc, Int64.add_assoc, Int64.add_assoc]
  -- The resumed run.
  obtain ⟨_, -, -, hstart⟩ := Shim.start_of_vclock hlive.1 realtime' mono' files'
  have hopened := congrArg Shim.clock hstart
  have hoffset := congrArg₂ (· + ·) (start_base hlive.1 hopened)
    (congrArg loadTicks hfile)
  rw [hload, hsame, ← hbase] at hoffset
  obtain ⟨hstarted, -, -, -⟩ := start_of_clock hopened (run Ticking.step live before).ticks
  have hrun : recovered.shim.clock = _ := hstarted
  replace hrun := (Shim.run_clock hrun calls).1
  have hcount : (recovered.shim.readings calls).length = fed := by
    rw [← requests_run hlive.1 calls, hfed]
  have hrecorded : if env.deltas then files'.deltas = some (advances.flatMap longLong)
      else advances = List.replicate advances.length tickNs := by
    cases henv : env.deltas with
    | false =>
        rw [if_neg (by decide)]
        simp only [advances, henv, spans_fixed_eq, List.length_replicate]
    | true =>
        rw [if_pos rfl]
        simp only [advances, henv]
        exact hdeltas henv
  have hle : (recovered.shim.readings calls).length ≤ advances.length := by
    rw [hcount, length_spans, Shim.readings_append, Shim.readings_append, ← shim_run]
    simp only [List.length_append, fed]
    omega
  have hresumed := now_resumed hlive.1 hopened hrecorded hle
    (loadTicks (run Ticking.step live before).ticks)
  rw [hcount] at hresumed
  rw [shim_run] at hshown ⊢
  rw [shim_run, Shim.sameTime_iff hshown hrun, hlive', hresumed]
  rw [show clock.now = _ from hoffset.symm, Int64.add_right_inj]

/-- **Resuming at a checkpoint.** Over every live run and every checkpoint in it: a recovery shows
the recorded times exactly if the clock has fixed ticks, or the recorded deltas from the checkpoint
on begin like the deltas of the whole run. -/
theorem resumes_iff (hlive : Shim.IsLive env files) (realtime mono : Int64) (ticks : Option Bytes)
    (before after : List Call) :
    let live := Ticking.start env realtime mono files ticks
    let deltas := spans true mono (live.shim.readings (before ++ after))
    live.Resumes env before after
      ↔ (env.deltas = true → deltas.drop (live.shim.readings before).length <+: deltas) := by
  intro live deltas
  let advances := spans env.deltas mono (live.shim.readings (before ++ after))
  let count := (live.shim.readings before).length
  have hlength : (advances.drop count).length
      = ((run Ticking.step live before).shim.readings after).length := by
    rw [List.length_drop, length_spans, Shim.readings_append, List.length_append, shim_run]
    exact Nat.add_sub_cancel_left ..
  have hcondition : advances.drop count <+: advances
      ↔ (env.deltas = true → deltas.drop count <+: deltas) := by
    cases henv : env.deltas with
    | false =>
        simp only [advances, henv, spans_fixed_eq, List.drop_replicate]
        refine iff_of_true ?_ fun hdeltas => by cases hdeltas
        rw [List.prefix_replicate_iff, List.length_replicate]
        exact ⟨Nat.sub_le .., rfl⟩
    | true =>
        simp only [advances, henv, deltas]
        exact ⟨fun hbegins _ => hbegins, fun hbegins => hbegins trivial⟩
  rw [← hcondition, ← totals_eq_iff (List.drop_sublist count advances).length_le]
  have hevents : ∀ calls, (run Ticking.step live calls).shim.requests
      = (live.shim.readings calls).length := requests_run hlive.1
  have hfed : ∀ between fed, (run Ticking.step live before).shim.requests + fed
        = (run Ticking.step live (before ++ between)).shim.requests
      ↔ fed = ((run Ticking.step live before).shim.readings between).length := by
    intro between fed
    rw [hevents, hevents, Shim.readings_append, List.length_append, shim_run]
    exact Nat.add_right_inj
  constructor
  · intro hresumes i hi
    rw [hlength] at hi
    obtain ⟨between, later, rfl, hbetween⟩ :=
      (run Ticking.step live before).shim.exists_split hi
    let recovered := Ticking.start env 0 0
      (run Ticking.step live (before ++ (between ++ later))).shim.files
      (run Ticking.step live before).ticks
    have hinputs : (run Ticking.step recovered (Shim.inputs i)).shim.requests
        = ((run Ticking.step live before).shim.readings between).length := by
      rw [requests_run hlive.1, Shim.length_readings_inputs, hbetween]
    have hsame := hresumes 0 0 between later (Shim.inputs i) rfl ((hfed between _).mpr hinputs)
    have htotals := (sameTime_iff hlive before between later 0 0 _ hinputs).mp hsame
    rwa [hbetween] at htotals
  · rintro htotals realtime' mono' between later calls rfl recovered hrequests
    have hcount := (hfed between _).mp hrequests
    refine (sameTime_iff hlive before between later realtime' mono' calls hcount).mpr ?_
    refine htotals _ ?_
    rw [hlength, Shim.readings_append, List.length_append]
    exact Nat.le_add_right ..

/-- Evenly spaced inputs are alike from any checkpoint on. -/
theorem resumes_evenly_spaced :
    Shim.IsLive { vclock := true, deltas := true } {}
      ∧ (Ticking.start { vclock := true, deltas := true } 1782053569000000000 0 {} none).Resumes
        { vclock := true, deltas := true } [.accept 5, .read 5 [1] 10] [.read 5 [2] 20] := by
  have hlive : Shim.IsLive { vclock := true, deltas := true } {} := ⟨rfl, fun _ => by decide⟩
  exact ⟨hlive, (resumes_iff hlive 1782053569000000000 0 none _ _).mpr fun _ => by decide +kernel⟩

/-- Inputs after 10 and 40 nanoseconds and a checkpoint between them: the recovery takes the first
delta again. -/
theorem resume_repeats_first_delta :
    ∃ files, Shim.IsLive { vclock := true, deltas := true } files
      ∧ ¬ (Ticking.start { vclock := true, deltas := true } 1782053569000000000 0 files none).Resumes
        { vclock := true, deltas := true } [.accept 5, .read 5 [1] 10] [.read 5 [2] 40] := by
  refine ⟨{}, ⟨rfl, fun _ => by decide⟩, fun hresumes => ?_⟩
  have hsame := hresumes 0 0 [.read 5 [2] 40] [] [.accept 5, .read 5 [2] 0] rfl
  obtain ⟨clock, clock', hclock, hclock', -, hshows, -⟩ := hsame (by decide +kernel)
  have hfirst : some clock.clockGettime = some (1782053569, 40) :=
    (congrArg (Option.map Vclock.clockGettime) hclock).symm.trans (by decide +kernel)
  have hsecond : some clock'.clockGettime = some (1782053569, 20) :=
    (congrArg (Option.map Vclock.clockGettime) hclock').symm.trans (by decide +kernel)
  rw [hshows, hsecond] at hfirst
  exact absurd hfirst (by decide)

end Ticking

end OneBarrier.Interpose
