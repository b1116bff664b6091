import OneBarrier.Interpose
import OneBarrier.Lib.Run
import Mathlib.Algebra.BigOperators.Group.List.Basic
import Mathlib.Data.List.Induction

/-!
# Virtual time

A clock that moves on input events only shows the same time after the same event, in the live run and
in a run on the files it left, however often it is asked. It never goes back as long as base and
advances stay within 64 bits, and goes back in the very step in which they leave them.
-/

namespace OneBarrier.Interpose

open Wire Run

/-! ### The advances of a live run -/

/-- A tick, or the time since the reading before, if that is not negative. -/
def span (deltas : Bool) (last mono : Int64) : Int64 :=
  if deltas then (if mono - last < 0 then 0 else mono - last) else tickNs

def spans (deltas : Bool) : Int64 → List Int64 → List Int64
  | _, [] => []
  | last, mono :: readings => span deltas last mono :: spans deltas mono readings

theorem span_nonneg (deltas : Bool) (last mono : Int64) : 0 ≤ (span deltas last mono).toInt := by
  rw [span]
  split
  · split
    · exact Int.le_refl 0
    · rename_i hdelta
      rw [Int64.lt_iff_toInt_lt] at hdelta
      exact Int.not_lt.mp hdelta
  · decide

theorem span_fixed (last mono : Int64) : span false last mono = tickNs := by simp [span]

theorem spans_fixed (last last' : Int64) (readings : List Int64) :
    spans false last readings = spans false last' readings := by
  cases readings with
  | nil => rfl
  | cons mono readings => rw [spans, spans, span_fixed, span_fixed]

theorem spans_append (deltas : Bool) (last : Int64) (first second : List Int64) :
    ∃ last', spans deltas last (first ++ second) = spans deltas last first ++ spans deltas last' second := by
  induction first generalizing last with
  | nil => exact ⟨last, rfl⟩
  | cons mono first ih =>
      obtain ⟨last', htail⟩ := ih mono
      exact ⟨last', congrArg (span deltas last mono :: ·) htail⟩

theorem length_spans (deltas : Bool) (last : Int64) (readings : List Int64) :
    (spans deltas last readings).length = readings.length := by
  induction readings generalizing last with
  | nil => rfl
  | cons mono readings ih => rw [spans, List.length_cons, List.length_cons, ih]

/-- The advances added up, with no bound. -/
def total (spans : List Int64) : Int := (spans.map Int64.toInt).sum

theorem total_append (first second : List Int64) : total (first ++ second) = total first + total second := by
  rw [total, List.map_append, List.sum_append]
  rfl

theorem total_nonneg (deltas : Bool) (last : Int64) (readings : List Int64) :
    0 ≤ total (spans deltas last readings) := by
  induction readings generalizing last with
  | nil => exact Int.le_refl 0
  | cons mono readings ih =>
      have hsum : total (spans deltas last (mono :: readings))
          = (span deltas last mono).toInt + total (spans deltas mono readings) := rfl
      have hspan := span_nonneg deltas last mono
      have hrest := ih mono
      omega

/-! ### The clock over a list of readings -/

namespace Vclock

def tick (clock : Vclock) (mono : Int64) : Vclock := (clock.advance mono none).1

def after (clock : Vclock) (readings : List Int64) : Vclock := readings.foldl tick clock

theorem fst_advance (clock : Vclock) (mono : Int64) (deltas : Option Bytes) :
    (clock.advance mono deltas).1 = clock.tick mono := by
  rw [tick, advance, advance, delta, delta]
  cases clock.mode with
  | fixed => rfl
  | record => rfl
  | replay =>
      dsimp only
      split <;> rfl

/-- The mode of a run that does not replay. -/
def Live (deltas : Bool) (clock : Vclock) : Prop :=
  clock.mode = if deltas then .record else .fixed

section

variable {deltas : Bool} {clock : Vclock}

theorem tick_live (hlive : clock.Live deltas) (mono : Int64) :
    (clock.tick mono).Live deltas
      ∧ (clock.tick mono).now = clock.now + span deltas clock.lastMonoNs mono
      ∧ ∀ readings, spans deltas (clock.tick mono).lastMonoNs readings = spans deltas mono readings := by
  cases deltas with
  | false =>
      have hmode : clock.mode = .fixed := hlive
      have htick : clock.tick mono = { clock with ticks := clock.ticks + tickNs } := by
        cases clock
        cases hmode
        rfl
      rw [htick]
      exact ⟨hmode, (Int64.add_assoc _ _ _).symm, spans_fixed _ _⟩
  | true =>
      have hmode : clock.mode = .record := hlive
      have htick : clock.tick mono = { clock with
          lastMonoNs := mono
          ticks := clock.ticks + span true clock.lastMonoNs mono } := by
        cases clock
        cases hmode
        rfl
      rw [htick]
      exact ⟨hmode, (Int64.add_assoc _ _ _).symm, fun _ => rfl⟩

/-- Within 64 bits, the clock shows base and advances. -/
theorem toInt_now_after (hlive : clock.Live deltas) {readings : List Int64}
    (hbound : clock.now.toInt + total (spans deltas clock.lastMonoNs readings) < 2 ^ 63) :
    (clock.after readings).now.toInt
      = clock.now.toInt + total (spans deltas clock.lastMonoNs readings) := by
  induction readings generalizing clock with
  | nil => exact (Int.add_zero _).symm
  | cons mono readings ih =>
      obtain ⟨hnext, hnow, hspans⟩ := tick_live hlive mono
      have hsum : total (spans deltas clock.lastMonoNs (mono :: readings))
          = (span deltas clock.lastMonoNs mono).toInt + total (spans deltas mono readings) := rfl
      have hspan := span_nonneg deltas clock.lastMonoNs mono
      have hrest := total_nonneg deltas mono readings
      have hlow := Int64.le_toInt clock.now
      have hexact : (clock.tick mono).now.toInt
          = clock.now.toInt + (span deltas clock.lastMonoNs mono).toInt := by
        rw [hnow, Int64.toInt_add]
        exact Int.bmod_eq_of_le (by omega) (by omega)
      have hlater := ih hnext (by rw [hspans, hexact]; omega)
      rw [hspans, hexact] at hlater
      change ((clock.tick mono).after readings).now.toInt = _
      omega

/-- The step that leaves the 64 bits takes the clock back. -/
theorem now_tick_lt (hlive : clock.Live deltas) {mono : Int64}
    (hbound : 2 ^ 63 ≤ clock.now.toInt + (span deltas clock.lastMonoNs mono).toInt) :
    (clock.tick mono).now.toInt < clock.now.toInt := by
  have hlow := Int64.toInt_lt clock.now
  have hspan := Int64.toInt_lt (span deltas clock.lastMonoNs mono)
  rw [(tick_live hlive mono).2.1, Int64.toInt_add]
  have hwrap : (clock.now.toInt + (span deltas clock.lastMonoNs mono).toInt).bmod (2 ^ 64)
      = clock.now.toInt + (span deltas clock.lastMonoNs mono).toInt - 2 ^ 64 := by
    rw [← Int.sub_bmod_right]
    exact Int.bmod_eq_of_le (by omega) (by omega)
  rw [hwrap]
  omega

theorem after_live (hlive : clock.Live deltas) (readings : List Int64) :
    (clock.after readings).Live deltas := by
  induction readings generalizing clock with
  | nil => exact hlive
  | cons mono readings ih => exact ih (tick_live hlive mono).1

end

/-- A clock that will move by the same advances as a live one that has these readings before it. -/
def Mirrors (live replay : Vclock) (deltas : Bool) (readings : List Int64) : Prop :=
  live.Live deltas ∧ replay.now = live.now ∧
    if deltas then
      replay.mode = .replay
        ∧ replay.deltaBuf.drop replay.deltaI = spans true live.lastMonoNs readings
    else replay.mode = .fixed

theorem Mirrors.tick {live replay : Vclock} {deltas : Bool} {mono : Int64} {readings : List Int64}
    (hmirrors : live.Mirrors replay deltas (mono :: readings)) (mono' : Int64) :
    (live.tick mono).Mirrors (replay.tick mono') deltas readings := by
  obtain ⟨hlive, hnow, hmode⟩ := hmirrors
  obtain ⟨hnext, hnow', hspans⟩ := tick_live hlive mono
  refine ⟨hnext, ?_⟩
  rw [hnow']
  cases deltas with
  | false =>
      have hfixed : replay.mode = .fixed := by simpa using hmode
      have hreplay : replay.Live false := hfixed
      obtain ⟨hnext', hshown, -⟩ := tick_live hreplay mono'
      refine ⟨?_, by simpa [Live] using hnext'⟩
      rw [hshown, hnow, span_fixed, span_fixed]
  | true =>
      obtain ⟨hreplay, hdrop⟩ : replay.mode = .replay
        ∧ replay.deltaBuf.drop replay.deltaI = spans true live.lastMonoNs (mono :: readings) := by
          simpa using hmode
      have hget : replay.deltaBuf[replay.deltaI]? = some (span true live.lastMonoNs mono) := by
        rw [← List.head?_drop, hdrop]
        rfl
      have htick : replay.tick mono' = { replay with
          deltaI := replay.deltaI + 1
          ticks := replay.ticks + span true live.lastMonoNs mono } := by
        rw [Vclock.tick, advance, delta, hreplay]
        simp only [hget]
      have hrest : replay.deltaBuf.drop (replay.deltaI + 1) = spans true mono readings := by
        rw [← List.tail_drop, hdrop]
        rfl
      rw [htick]
      refine ⟨?_, ?_⟩
      · rw [← hnow]
        exact (Int64.add_assoc _ _ _).symm
      · rw [if_pos rfl, hspans]
        exact ⟨hreplay, hrest⟩

/-- After as many events, the same time. -/
theorem Mirrors.now_after {live replay : Vclock} {deltas : Bool} {readings later readings' : List Int64}
    (hmirrors : live.Mirrors replay deltas (readings ++ later))
    (hlength : readings'.length = readings.length) :
    (replay.after readings').now = (live.after readings).now := by
  induction readings generalizing live replay readings' with
  | nil =>
      rw [List.length_eq_zero_iff.mp hlength]
      exact hmirrors.2.1
  | cons mono readings ih =>
      cases readings' with
      | nil => cases hlength
      | cons mono' readings' =>
          change ((replay.tick mono').after readings').now = ((live.tick mono).after readings).now
          exact ih (hmirrors.tick mono') (Nat.succ.inj hlength)

/-! ### What the three calls answer -/

/-- Earlier, or the same, as pairs of seconds and a fraction. -/
def NotLater (first second : Int64 × Int64) : Prop :=
  first.1 < second.1 ∨ (first.1 = second.1 ∧ first.2 ≤ second.2)

/-- No call answers an earlier time at the second clock than at the first. -/
structure NeverBack (first second : Vclock) : Prop where
  gettimeofday : NotLater first.gettimeofday second.gettimeofday
  clockGettime : NotLater first.clockGettime second.clockGettime
  time : first.time ≤ second.time

theorem toInt_div_pos (value : Int64) {divisor : Int64} (hdivisor : 0 < divisor.toInt) :
    (value / divisor).toInt = value.toInt.tdiv divisor.toInt := by
  refine Int64.toInt_div_of_ne_right value divisor fun hminus => ?_
  rw [hminus] at hdivisor
  exact absurd hdivisor (by decide)

theorem NotLater.div {first second : Int64 × Int64} (hle : NotLater first second) :
    NotLater (first.1, first.2 / 1000) (second.1, second.2 / 1000) := by
  rcases hle with hlt | ⟨hsame, hle⟩
  · exact .inl hlt
  · refine .inr ⟨hsame, ?_⟩
    rw [Int64.le_iff_toInt_le] at hle ⊢
    rw [toInt_div_pos _ (by decide), toInt_div_pos _ (by decide)]
    exact Int.tdiv_le_tdiv (by decide) hle

theorem notLater_of_now_le {first second : Vclock} (hle : first.now.toInt ≤ second.now.toInt) :
    NotLater first.clockGettime second.clockGettime := by
  have hquotient : (first.now / 1000000000).toInt ≤ (second.now / 1000000000).toInt := by
    rw [toInt_div_pos _ (by decide), toInt_div_pos _ (by decide)]
    exact Int.tdiv_le_tdiv (by decide) hle
  rcases Int.lt_or_eq_of_le hquotient with hlt | hsame
  · exact .inl (Int64.lt_iff_toInt_lt.mpr hlt)
  · refine .inr ⟨Int64.toInt_inj.mp hsame, ?_⟩
    rw [toInt_div_pos _ (by decide), toInt_div_pos _ (by decide)] at hsame
    have hfirst := Int.mul_tdiv_add_tmod first.now.toInt (1000000000 : Int64).toInt
    have hsecond := Int.mul_tdiv_add_tmod second.now.toInt (1000000000 : Int64).toInt
    change (first.now % 1000000000) ≤ (second.now % 1000000000)
    rw [Int64.le_iff_toInt_le, Int64.toInt_mod, Int64.toInt_mod]
    rw [hsame] at hfirst
    omega

theorem neverBack_iff {first second : Vclock} :
    first.NeverBack second ↔ first.now.toInt ≤ second.now.toInt := by
  constructor
  · intro hback
    by_contra hlt
    -- a later time also has the later pair, so the two pairs are one
    have hreverse : NotLater second.clockGettime first.clockGettime :=
      notLater_of_now_le (by omega)
    have hpair := hback.clockGettime
    have hsame : first.now / 1000000000 = second.now / 1000000000
        ∧ first.now % 1000000000 = second.now % 1000000000 := by
      rcases hpair with hless | ⟨hquotient, hrest⟩ <;> rcases hreverse with hless' | ⟨hquotient', hrest'⟩
      · exact absurd (Int64.lt_trans hless hless') (Int64.lt_irrefl)
      · exact absurd (hquotient' ▸ hless) (Int64.lt_irrefl)
      · exact absurd (hquotient ▸ hless') (Int64.lt_irrefl)
      · exact ⟨hquotient, Int64.le_antisymm hrest hrest'⟩
    have hfirst := Int.mul_tdiv_add_tmod first.now.toInt (1000000000 : Int64).toInt
    have hsecond := Int.mul_tdiv_add_tmod second.now.toInt (1000000000 : Int64).toInt
    rw [← toInt_div_pos _ (by decide), ← Int64.toInt_mod] at hfirst hsecond
    rw [hsame.1, hsame.2] at hfirst
    omega
  · intro hle
    have hpair := notLater_of_now_le hle
    refine ⟨hpair.div, hpair, ?_⟩
    rcases hpair with hlt | ⟨hsame, -⟩
    · exact Int64.le_of_lt hlt
    · exact Int64.le_of_eq hsame

end Vclock

/-! ### The shim over a run -/

namespace Shim

/-- What the monotonic clock read at the inputs captured. -/
def readings (shim : Shim) : List Call → List Int64
  | [] => []
  | .read fd input mono :: calls =>
      if (shim.captures fd input).isSome then
        mono :: readings (shim.step (.read fd input mono)) calls
      else readings (shim.step (.read fd input mono)) calls
  | call :: calls => readings (shim.step call) calls

theorem readings_append (shim : Shim) (first second : List Call) :
    shim.readings (first ++ second)
      = shim.readings first ++ (run Shim.step shim first).readings second := by
  induction first generalizing shim with
  | nil => rfl
  | cons call first ih =>
      cases call with
      | accept fd => exact ih _
      | close fd => exact ih _
      | read fd input mono =>
          rw [List.cons_append, readings, readings, ih]
          split <;> rfl

theorem capture_of_none {shim : Shim} {fd : Nat} {input : Bytes} (mono : Int64)
    (hcaptures : shim.captures fd input = none) : shim.step (.read fd input mono) = shim := by
  rw [step, capture, hcaptures]

theorem step_clock {shim : Shim} {clock : Vclock} (hclock : shim.clock = some clock) (call : Call) :
    (shim.step call).clock = some (clock.after (shim.readings [call]))
      ∧ (shim.step call).requests = shim.requests + (shim.readings [call]).length
      ∧ (shim.step call).files.vclock = shim.files.vclock := by
  cases call with
  | accept fd =>
      rw [step]
      split <;> exact ⟨hclock, rfl, rfl⟩
  | close fd =>
      rw [step]
      split <;> exact ⟨hclock, rfl, rfl⟩
  | read fd input mono =>
      cases hcaptures : shim.captures fd input with
      | none =>
          rw [capture_of_none mono hcaptures, readings, hcaptures]
          exact ⟨hclock, rfl, rfl⟩
      | some connId =>
          rw [step, capture, readings, hcaptures, hclock]
          refine ⟨congrArg some ?_, rfl, rfl⟩
          exact clock.fst_advance mono shim.files.deltas

theorem run_clock {shim : Shim} {clock : Vclock} (hclock : shim.clock = some clock)
    (calls : List Call) :
    (run Shim.step shim calls).clock = some (clock.after (shim.readings calls))
      ∧ (run Shim.step shim calls).requests = shim.requests + (shim.readings calls).length
      ∧ (run Shim.step shim calls).files.vclock = shim.files.vclock := by
  induction calls generalizing shim clock with
  | nil => exact ⟨hclock, rfl, rfl⟩
  | cons call calls ih =>
      obtain ⟨hnext, hrequests, hfile⟩ := step_clock hclock call
      obtain ⟨hlast, hcount, hsame⟩ := ih hnext
      have hreadings : shim.readings (call :: calls)
          = shim.readings [call] ++ (shim.step call).readings calls :=
        readings_append shim [call] calls
      rw [run_cons, hreadings, List.length_append]
      refine ⟨?_, ?_, ?_⟩
      · rw [hlast, Vclock.after, Vclock.after, Vclock.after, List.foldl_append]
      · omega
      · rw [hsame, hfile]

/-- A run that records leaves its advances behind. -/
theorem run_deltas {shim : Shim} {clock : Vclock} {recorded : Bytes}
    (hclock : shim.clock = some clock) (hmode : clock.mode = .record)
    (hfile : shim.files.deltas = some recorded) (calls : List Call) :
    (run Shim.step shim calls).files.deltas
      = some (recorded ++ (spans true clock.lastMonoNs (shim.readings calls)).flatMap longLong) := by
  induction calls generalizing shim clock recorded with
  | nil => exact hfile.trans (congrArg some (List.append_nil recorded).symm)
  | cons call calls ih =>
      obtain ⟨hnext, -, -⟩ := step_clock hclock call
      cases call with
      | accept fd =>
          refine ih hnext hmode ?_
          rw [step]
          split <;> exact hfile
      | close fd =>
          refine ih hnext hmode ?_
          rw [step]
          split <;> exact hfile
      | read fd input mono =>
          rw [run_cons, readings]
          cases hcaptures : shim.captures fd input with
          | none =>
              rw [capture_of_none mono hcaptures]
              exact ih hclock hmode hfile
          | some connId =>
              have hlive : clock.Live true := hmode
              obtain ⟨hstill, -, hspans⟩ := Vclock.tick_live hlive mono
              have hticked : (shim.step (.read fd input mono)).clock = some (clock.tick mono) := by
                rw [readings, hcaptures] at hnext
                exact hnext
              have hwritten : (shim.step (.read fd input mono)).files.deltas
                  = some (recorded ++ longLong (span true clock.lastMonoNs mono)) := by
                rw [step, capture, hcaptures, hclock]
                change (clock.advance mono shim.files.deltas).2 = _
                rw [hfile, Vclock.advance, Vclock.delta, hmode]
                rfl
              rw [ih hticked hstill hwritten, hspans, Option.isSome_some, if_pos rfl,
                spans, List.flatMap_cons, List.append_assoc]

/-- A live run has no deltas to replay. -/
def IsLive (env : Env) (files : Files) : Prop :=
  env.vclock = true ∧ (env.deltas = true → (files.deltas.getD []).length < 8)

theorem start_of_vclock {env : Env} (hvclock : env.vclock = true) (realtime mono : Int64)
    (files : Files) : ∃ opened : Files, opened.vclock = files.vclock ∧ opened.deltas = files.deltas
      ∧ Shim.start env realtime mono files
        = { env
            clock := some (vclockInit env realtime mono opened).1
            files := (vclockInit env realtime mono opened).2 } := by
  refine ⟨if env.capture then { files with capture := some (files.capture.getD []) } else files,
    ?_, ?_, ?_⟩
  · split <;> rfl
  · split <;> rfl
  · rw [start, if_pos hvclock]

theorem initBase_files (realtime realtime' : Int64) {files later : Files}
    (hlater : later.vclock = (initBase realtime files).2.vclock) :
    (initBase realtime' later).1 = (initBase realtime files).1 := by
  cases hfile : files.vclock with
  | some input =>
      have hsame : later.vclock = some input := by
        rw [hlater, initBase, hfile]
        exact hfile
      simp only [initBase, hfile, hsame]
  | none =>
      have hstored : later.vclock = some (longLong realtime) := by
        rw [hlater, initBase, hfile]
      simp only [initBase, hfile, hstored]
      rw [longLong, (i64_exact realtime).run_self]
      rfl

/-- The clock of a live run at its start, and the files it works on. -/
theorem start_live {env : Env} {files : Files} (hlive : IsLive env files) (realtime mono : Int64) :
    ∃ clock, (Shim.start env realtime mono files).clock = some clock
      ∧ clock.Live env.deltas ∧ clock.now = (initBase realtime files).1
      ∧ (∀ readings, spans env.deltas clock.lastMonoNs readings = spans env.deltas mono readings)
      ∧ (Shim.start env realtime mono files).files.vclock = (initBase realtime files).2.vclock
      ∧ (env.deltas = true → (Shim.start env realtime mono files).files.deltas = some []) := by
  obtain ⟨opened, hvclock, hdeltas, hstart⟩ := start_of_vclock hlive.1 realtime mono files
  have hbase : (initBase realtime opened).1 = (initBase realtime files).1
      ∧ (initBase realtime opened).2.vclock = (initBase realtime files).2.vclock
      ∧ (initBase realtime opened).2.deltas = files.deltas := by
    rw [initBase, initBase, hvclock]
    cases files.vclock with
    | some input => exact ⟨rfl, hvclock, hdeltas⟩
    | none => exact ⟨rfl, rfl, hdeltas⟩
  rw [hstart, vclockInit]
  cases henv : env.deltas with
  | false =>
      refine ⟨_, rfl, rfl, ?_, spans_fixed _ _, hbase.2.1, fun hdeltas => by cases hdeltas⟩
      exact (Int64.add_zero _).trans hbase.1
  | true =>
      have hshort : ¬ 8 ≤ ((initBase realtime opened).2.deltas.getD []).length := by
        rw [hbase.2.2]
        exact Nat.not_le.mpr (hlive.2 henv)
      simp only [if_true, initDeltas, if_neg hshort]
      exact ⟨_, rfl, rfl, (Int64.add_zero _).trans hbase.1, fun _ => rfl, hbase.2.1, fun _ => trivial⟩

theorem initBase_deltas (realtime : Int64) (files : Files) :
    (initBase realtime files).2.deltas = files.deltas := by
  rw [initBase]
  split <;> rfl

theorem length_flatMap_longLong (values : List Int64) :
    (values.flatMap longLong).length = 8 * values.length := by
  induction values with
  | nil => rfl
  | cons value values ih =>
      rw [List.flatMap_cons, List.length_append, ih, longLong, length_leBytes, List.length_cons]
      omega

theorem times_longLong (values : List Int64) :
    times values.length i64 (values.flatMap longLong) = some (values, []) :=
  (Exact.times values fun value _ => i64_exact value).run_self

/-- The clock of a run on the files a live run has left. -/
theorem vclockInit_replay {env : Env} {live : Vclock} {readings : List Int64} {files : Files}
    {realtime : Int64} (mono : Int64) (hlive : live.Live env.deltas)
    (hnow : (initBase realtime files).1 = live.now)
    (hdeltas : env.deltas = true →
      files.deltas = some ((spans true live.lastMonoNs readings).flatMap longLong)) :
    (vclockInit env realtime mono files).1.now = live.now
      ∧ (readings = [] ∨ live.Mirrors (vclockInit env realtime mono files).1 env.deltas readings) := by
  have hzero : (initBase realtime files).1 + 0 = live.now := by rw [Int64.add_zero, hnow]
  rw [vclockInit]
  cases henv : env.deltas with
  | false =>
      rw [henv] at hlive
      exact ⟨hzero, .inr ⟨hlive, hzero, rfl⟩⟩
  | true =>
      rw [henv] at hlive
      have hfile := hdeltas henv
      rw [← initBase_deltas realtime] at hfile
      have hlength := length_flatMap_longLong (spans true live.lastMonoNs readings)
      rw [length_spans] at hlength
      simp only [if_true, initDeltas, hfile, Option.getD_some, hlength]
      by_cases hempty : readings = []
      · rw [hempty]
        exact ⟨hzero, .inl rfl⟩
      · have hpositive := List.length_pos_of_ne_nil hempty
        have hcount : 8 * readings.length / 8 = (spans true live.lastMonoNs readings).length := by
          rw [length_spans]
          omega
        rw [if_pos (by omega), hcount, times_longLong]
        exact ⟨hzero, .inr ⟨hlive, hzero, rfl, rfl⟩⟩

/-- A run on the files a live run has left shows, after as many events, the time the live run
showed. -/
theorem replay_now {env : Env} {files : Files} {realtime mono : Int64} {calls : List Call}
    {clock : Vclock} (hlive : IsLive env files)
    (hclock : (Shim.start env realtime mono files).clock = some clock)
    (realtime' mono' : Int64) (calls' : List Call) :
    let live := Shim.start env realtime mono files
    let replay := run Shim.step (Shim.start env realtime' mono' (run Shim.step live calls).files) calls'
    replay.requests ≤ (run Shim.step live calls).requests →
      ∃ shown, replay.clock = some shown
        ∧ shown.now = (clock.after ((live.readings calls).take replay.requests)).now := by
  intro live replay hrequests
  obtain ⟨first, hfirst, hmode, hnow, -, hbase, hempty⟩ := start_live hlive realtime mono
  obtain rfl : first = clock := Option.some.inj (hfirst.symm.trans hclock)
  obtain ⟨-, hruns, hfile⟩ := run_clock hclock calls
  obtain ⟨opened, hvclock, hdeltas, hstart⟩ :=
    start_of_vclock hlive.1 realtime' mono' (run Shim.step live calls).files
  have hbase' : (initBase realtime' opened).1 = first.now := by
    rw [hnow]
    exact initBase_files realtime realtime' (hvclock.trans (hfile.trans hbase))
  have hrecorded : env.deltas = true → opened.deltas
      = some ((spans true first.lastMonoNs (live.readings calls)).flatMap longLong) := by
    intro henv
    have hrecord : first.mode = .record := by rw [hmode, henv, if_pos rfl]
    rw [hdeltas, run_deltas hclock hrecord (hempty henv) calls, List.nil_append]
  have hzero : live.requests = 0 := by
    obtain ⟨_, -, -, hopened⟩ := start_of_vclock hlive.1 realtime mono files
    exact congrArg Shim.requests hopened
  have hinit : (Shim.start env realtime' mono' (run Shim.step live calls).files).clock
      = some (vclockInit env realtime' mono' opened).1 := congrArg Shim.clock hstart
  have hnone : (Shim.start env realtime' mono' (run Shim.step live calls).files).requests = 0 :=
    congrArg Shim.requests hstart
  obtain ⟨hlast, hcount', -⟩ := run_clock hinit calls'
  obtain ⟨hshown, hmirrors⟩ := vclockInit_replay mono' hmode hbase' hrecorded
  refine ⟨_, hlast, ?_⟩
  rw [hnone, Nat.zero_add] at hcount'
  have hcount : (run Shim.step live calls).requests = (live.readings calls).length := by
    rw [← Nat.zero_add (live.readings calls).length, ← hzero]
    exact hruns
  have hreplay : replay.requests = ((Shim.start env realtime' mono'
    (run Shim.step live calls).files).readings calls').length := hcount'
  rcases hmirrors with hnothing | hmirrors
  · -- no event in the live run, so none here
    have hnone' : replay.requests = 0 := by
      rw [hnothing, List.length_nil] at hcount
      omega
    rw [hnone'] at hreplay ⊢
    rw [List.length_eq_zero_iff.mp hreplay.symm]
    exact hshown
  · rw [← List.take_append_drop replay.requests (live.readings calls)] at hmirrors
    refine hmirrors.now_after ?_
    rw [List.length_take]
    omega

/-! ### Two runs -/

/-- All three calls answer the same. -/
def SameTime (first second : Shim) : Prop :=
  ∃ clock clock', first.clock = some clock ∧ second.clock = some clock'
    ∧ clock.gettimeofday = clock'.gettimeofday ∧ clock.clockGettime = clock'.clockGettime
    ∧ clock.time = clock'.time

/-- The calls that show less agree with the one that shows nanoseconds. -/
def Agree (shim : Shim) : Prop :=
  ∃ clock, shim.clock = some clock
    ∧ clock.gettimeofday = (clock.clockGettime.1, clock.clockGettime.2 / 1000)
    ∧ clock.time = clock.clockGettime.1

def NeverBack (first second : Shim) : Prop :=
  ∃ clock clock', first.clock = some clock ∧ second.clock = some clock' ∧ clock.NeverBack clock'

/-- A live run from `live`, and the runs started on the files it left. -/
structure Reproduces (env : Env) (live : Shim) (calls : List Call) : Prop where
  same : ∀ before after, calls = before ++ after → ∀ realtime mono calls',
    (run Shim.step (Shim.start env realtime mono (run Shim.step live calls).files) calls').requests
        = (run Shim.step live before).requests →
      SameTime (run Shim.step live before)
        (run Shim.step (Shim.start env realtime mono (run Shim.step live calls).files) calls')
  agree : ∀ before after, calls = before ++ after → Agree (run Shim.step live before)
  agree_replay : ∀ realtime mono calls',
    Agree (run Shim.step (Shim.start env realtime mono (run Shim.step live calls).files) calls')
  neverBack : ∀ before between after, calls = before ++ between ++ after →
    NeverBack (run Shim.step live before) (run Shim.step live (before ++ between))
  neverBack_replay : ∀ realtime mono before between,
    let replay := Shim.start env realtime mono (run Shim.step live calls).files
    (run Shim.step replay (before ++ between)).requests ≤ (run Shim.step live calls).requests →
      NeverBack (run Shim.step replay before) (run Shim.step replay (before ++ between))

theorem sameTime_of_now {first second : Shim} {clock clock' : Vclock}
    (hfirst : first.clock = some clock) (hsecond : second.clock = some clock')
    (hnow : clock'.now = clock.now) : SameTime first second := by
  refine ⟨clock, clock', hfirst, hsecond, ?_, ?_, ?_⟩
  · rw [Vclock.gettimeofday, Vclock.gettimeofday, hnow]
  · rw [Vclock.clockGettime, Vclock.clockGettime, hnow]
  · rw [Vclock.time, Vclock.time, hnow]

end Shim

namespace Vclock

variable {deltas : Bool} {clock : Vclock}

theorem after_append (first second : List Int64) :
    clock.after (first ++ second) = (clock.after first).after second := List.foldl_append

theorem lastMonoNs_after (hlive : clock.Live deltas) (first second : List Int64) :
    spans deltas clock.lastMonoNs (first ++ second)
      = spans deltas clock.lastMonoNs first ++ spans deltas (clock.after first).lastMonoNs second := by
  induction first generalizing clock with
  | nil => rfl
  | cons mono first ih =>
      obtain ⟨hnext, -, hspans⟩ := tick_live hlive mono
      have hrest := ih hnext
      rw [hspans, hspans] at hrest
      rw [List.cons_append, spans, spans, hrest]
      rfl

/-- The clock goes back at no event exactly if base and advances stay within 64 bits. -/
theorem now_le_iff (hlive : clock.Live deltas) (readings : List Int64) :
    (∀ first second, readings = first ++ second →
        ∀ before between, first = before ++ between →
          (clock.after before).now.toInt ≤ (clock.after first).now.toInt)
      ↔ clock.now.toInt + total (spans deltas clock.lastMonoNs readings) < 2 ^ 63 := by
  constructor
  · intro hmonotone
    induction readings using List.reverseRecOn with
    | nil => exact (Int.add_zero _).trans_lt (Int64.toInt_lt clock.now)
    | append_singleton readings mono ih =>
        have hbound := ih fun first second hsplit =>
          hmonotone first (second ++ [mono]) (by rw [hsplit, List.append_assoc])
        have hnow := toInt_now_after hlive hbound
        have hnext := hmonotone (readings ++ [mono]) [] (List.append_nil _).symm readings [mono] rfl
        rw [lastMonoNs_after hlive, total_append]
        by_contra hwrap
        have hspan : total (spans deltas (clock.after readings).lastMonoNs [mono])
            = (span deltas (clock.after readings).lastMonoNs mono).toInt := Int.add_zero _
        have hback : ((clock.after readings).tick mono).now.toInt < (clock.after readings).now.toInt :=
          now_tick_lt (after_live hlive readings) (by omega)
        rw [after_append] at hnext
        exact absurd hnext (Int.not_le.mpr hback)
  · rintro hbound first second rfl before between rfl
    rw [lastMonoNs_after hlive, lastMonoNs_after hlive, total_append, total_append] at hbound
    have hsecond := total_nonneg deltas (clock.after (before ++ between)).lastMonoNs second
    have hbetween := total_nonneg deltas (clock.after before).lastMonoNs between
    have hbefore : (clock.after before).now.toInt = _ := toInt_now_after hlive (by omega)
    have hfirst : (clock.after (before ++ between)).now.toInt = _ :=
      toInt_now_after hlive (by rw [lastMonoNs_after hlive, total_append]; omega)
    rw [lastMonoNs_after hlive, total_append] at hfirst
    omega

end Vclock

theorem Shim.length_readings_singleton (shim : Shim) (call : Call) :
    (shim.readings [call]).length ≤ 1 := by
  cases call with
  | accept fd => exact Nat.zero_le 1
  | close fd => exact Nat.zero_le 1
  | read fd input mono =>
      rw [readings]
      split
      · exact Nat.le_refl 1
      · exact Nat.zero_le 1

/-- Every part of the readings is that of a part of the run. -/
theorem Shim.exists_calls (shim : Shim) {calls : List Call} {first second : List Int64}
    (hreadings : shim.readings calls = first ++ second) :
    ∃ before after, calls = before ++ after ∧ shim.readings before = first := by
  induction calls using List.reverseRecOn generalizing second with
  | nil =>
      obtain ⟨rfl, -⟩ := List.append_eq_nil_iff.mp hreadings.symm
      exact ⟨[], [], rfl, rfl⟩
  | append_singleton calls call ih =>
      rw [readings_append] at hreadings
      obtain ⟨more, hfirst, hcall⟩ | ⟨more, hcalls, -⟩ := List.append_eq_append_iff.mp hreadings
      · have hlength := (run Shim.step shim calls).length_readings_singleton call
        rw [hcall, List.length_append] at hlength
        by_cases hmore : more = []
        · rw [hmore, List.append_nil] at hfirst
          exact ⟨calls, [call], rfl, hfirst.symm⟩
        · -- this call gives the last of the readings
          have hpositive := List.length_pos_of_ne_nil hmore
          have hsecond : second = [] := List.length_eq_zero_iff.mp (by omega)
          refine ⟨calls ++ [call], [], (List.append_nil _).symm, ?_⟩
          rw [readings_append, hcall, hsecond, List.append_nil, hfirst]
      · obtain ⟨before, after, rfl, hbefore⟩ := ih hcalls
        exact ⟨before, after ++ [call], List.append_assoc _ _ _, hbefore⟩

/-- Over every live run: the runs on the files it left show the same time after the same event, and
no run goes back in time, exactly if base and advances stay within 64 bits. -/
theorem virtual_time_reproduced_iff {env : Env} {files : Files} (hlive : Shim.IsLive env files)
    (realtime mono : Int64) (calls : List Call) :
    Shim.Reproduces env (Shim.start env realtime mono files) calls
      ↔ (initBase realtime files).1.toInt
          + total (spans env.deltas mono ((Shim.start env realtime mono files).readings calls))
        < 2 ^ 63 := by
  obtain ⟨clock, hclock, hmode, hnow, hspans, -, -⟩ := Shim.start_live hlive realtime mono
  rw [← hnow, ← hspans, ← Vclock.now_le_iff hmode]
  have hshown : ∀ before, (run Shim.step (Shim.start env realtime mono files) before).clock
      = some (clock.after ((Shim.start env realtime mono files).readings before)) :=
    fun before => (Shim.run_clock hclock before).1
  generalize hstart : Shim.start env realtime mono files = live at *
  constructor
  · rintro hreproduces first second hsplit before between rfl
    obtain ⟨calls₁, calls₂, rfl, hfirst⟩ := live.exists_calls hsplit
    obtain ⟨calls₀, calls₁, rfl, hbefore⟩ := live.exists_calls hfirst
    obtain ⟨shown, shown', hclock₀, hclock₁, hback⟩ := hreproduces.neverBack calls₀ calls₁ calls₂ rfl
    rw [hshown, hbefore] at hclock₀
    rw [hshown, hfirst] at hclock₁
    rw [Option.some.inj hclock₀, Option.some.inj hclock₁]
    exact Vclock.neverBack_iff.mp hback
  · intro hmonotone
    have hzero : live.requests = 0 := by
      obtain ⟨_, -, -, hopened⟩ := Shim.start_of_vclock hlive.1 realtime mono files
      rw [← hstart, hopened]
    have hcount : ∀ before, (run Shim.step live before).requests = (live.readings before).length := by
      intro before
      rw [(Shim.run_clock hclock before).2.1, hzero, Nat.zero_add]
    have hreplay : ∀ realtime' mono' calls', (run Shim.step (Shim.start env realtime' mono'
        (run Shim.step live calls).files) calls').requests ≤ (run Shim.step live calls).requests →
        ∃ shown, (run Shim.step (Shim.start env realtime' mono'
            (run Shim.step live calls).files) calls').clock = some shown
          ∧ shown.now = (clock.after ((live.readings calls).take (run Shim.step (Shim.start env
            realtime' mono' (run Shim.step live calls).files) calls').requests)).now := by
      subst hstart
      exact fun realtime' mono' calls' => Shim.replay_now hlive hclock realtime' mono' calls'
    refine ⟨?_, ?_, ?_, ?_, ?_⟩
    · rintro before after rfl realtime' mono' calls' hrequests
      have hpart : (live.readings (before ++ after)).take (live.readings before).length
          = live.readings before := by
        rw [Shim.readings_append, List.take_left]
      obtain ⟨shown, hshown', hnow'⟩ := hreplay realtime' mono' calls' (by
        rw [hrequests, hcount, hcount, Shim.readings_append, List.length_append]
        omega)
      rw [hrequests, hcount, hpart] at hnow'
      exact Shim.sameTime_of_now (hshown before) hshown' hnow'
    · rintro before after -
      exact ⟨_, hshown before, rfl, rfl⟩
    · intro realtime' mono' calls'
      obtain ⟨opened, -, -, hopened⟩ :=
        Shim.start_of_vclock hlive.1 realtime' mono' (run Shim.step live calls).files
      exact ⟨_, (Shim.run_clock (congrArg Shim.clock hopened) calls').1, rfl, rfl⟩
    · rintro before between after rfl
      refine ⟨_, _, hshown before, hshown (before ++ between), Vclock.neverBack_iff.mpr ?_⟩
      exact hmonotone _ _ (live.readings_append (before ++ between) after) _ _
        (live.readings_append before between)
    · intro realtime' mono' before between replay hrequests
      have hfewer : (run Shim.step replay before).requests
          ≤ (run Shim.step replay (before ++ between)).requests := by
        obtain ⟨opened, -, -, hopened⟩ :=
          Shim.start_of_vclock hlive.1 realtime' mono' (run Shim.step live calls).files
        have hinit : replay.clock = some _ := congrArg Shim.clock hopened
        rw [(Shim.run_clock hinit before).2.1, (Shim.run_clock hinit (before ++ between)).2.1,
          Shim.readings_append, List.length_append]
        omega
      obtain ⟨first, hfirst, hnow₁⟩ := hreplay realtime' mono' before (Nat.le_trans hfewer hrequests)
      obtain ⟨second, hsecond, hnow₂⟩ := hreplay realtime' mono' (before ++ between) hrequests
      refine ⟨first, second, hfirst, hsecond, Vclock.neverBack_iff.mpr ?_⟩
      rw [hnow₁, hnow₂]
      refine hmonotone _ _ (List.take_append_drop _ _).symm _
        (((live.readings calls).take (run Shim.step replay (before ++ between)).requests).drop
          (run Shim.step replay before).requests) ?_
      have htake : (live.readings calls).take (run Shim.step replay before).requests
          = ((live.readings calls).take (run Shim.step replay (before ++ between)).requests).take
            (run Shim.step replay before).requests := by
        rw [List.take_take, Nat.min_eq_left hfewer]
      calc (live.readings calls).take (run Shim.step replay (before ++ between)).requests
          = _ ++ _ := (List.take_append_drop (run Shim.step replay before).requests _).symm
        _ = _ := by rw [← htake]

/-- Three reads on one connection; the monotonic clock goes back in between. -/
def threeReads (jump : Int64) : List Call :=
  [.accept 5, .read 5 [1] jump, .read 5 [2] 0, .read 5 [3] jump]

theorem virtual_time_reproduced_threeReads :
    Shim.IsLive { vclock := true, deltas := true } {}
      ∧ Shim.Reproduces { vclock := true, deltas := true }
        (Shim.start { vclock := true, deltas := true } 1782053569000000000 0 {})
        (threeReads 1000000000) := by
  have hlive : Shim.IsLive { vclock := true, deltas := true } {} := ⟨rfl, fun _ => by decide⟩
  exact ⟨hlive, (virtual_time_reproduced_iff hlive _ _ _).mpr (by decide +kernel)⟩

/-- Two jumps of a quarter of the range each, and the clock is back before its start. -/
theorem virtual_time_overflows :
    Shim.IsLive { vclock := true, deltas := true } {}
      ∧ ¬ Shim.Reproduces { vclock := true, deltas := true }
        (Shim.start { vclock := true, deltas := true } 1782053569000000000 0 {})
        (threeReads 4611686018427387904) := by
  refine ⟨⟨rfl, fun _ => by decide⟩, fun hreproduces => ?_⟩
  obtain ⟨first, second, hfirst, hsecond, hback⟩ := hreproduces.neverBack [] (threeReads _) [] rfl
  have hbefore : (run Shim.step (Shim.start { vclock := true, deltas := true } 1782053569000000000 0
      {}) []).clock.map Vclock.now = some 1782053569000000000 := by decide +kernel
  have hafter : (run Shim.step (Shim.start { vclock := true, deltas := true } 1782053569000000000 0
      {}) (threeReads 4611686018427387904)).clock.map Vclock.now = some (-7441318467854775808) := by
    decide +kernel
  rw [hfirst] at hbefore
  rw [List.nil_append] at hsecond
  rw [hsecond] at hafter
  have hle := Vclock.neverBack_iff.mp hback
  rw [Option.some.inj hbefore, Option.some.inj hafter] at hle
  exact absurd hle (by decide)

end OneBarrier.Interpose
