import OneBarrier.Proof.Vclock

/-!
# Virtual time and segmentation

The clock moves once for every read that returns something, so after the same bytes it shows what the
number of reads makes of it. Two ways of splitting the bytes agree exactly if the reads that only one
of them has add up to nothing.
-/

namespace OneBarrier.Interpose

open Wire Run

/-- What `count` inputs move the clock by, with no bound: a tick each, or the recorded deltas. -/
def elapsed (recorded : Option (List Int64)) (count : Nat) : Int :=
  match recorded with
  | none => count * tickNs.toInt
  | some deltas => total (deltas.take count)

/-- The deltas a run on these files replays, if it replays any. -/
def recordedDeltas (env : Env) (files : Files) : Option (List Int64) :=
  if env.deltas then
    some (((times ((files.deltas.getD []).length / 8) i64 (files.deltas.getD [])).map
      Prod.fst).getD [])
  else none

/-- Fixed ticks, or deltas recorded before. -/
def Reconstructs (env : Env) (files : Files) : Prop :=
  env.vclock = true ∧ (env.deltas = true → 8 ≤ (files.deltas.getD []).length)

namespace Vclock

/-- What is left to replay; `none` for a clock with fixed ticks. -/
def Holds (clock : Vclock) : Option (List Int64) → Prop
  | none => clock.mode = .fixed
  | some deltas => clock.mode = .replay ∧ clock.deltaBuf.drop clock.deltaI = deltas

theorem now_after_fixed {clock : Vclock} (hfixed : clock.Live false) (readings : List Int64) :
    (clock.after readings).now = clock.now + Int64.ofInt (elapsed none readings.length) := by
  induction readings generalizing clock with
  | nil => exact (Int64.add_zero _).symm
  | cons mono readings ih =>
      obtain ⟨hnext, hnow, -⟩ := tick_live hfixed mono
      have hsum : elapsed none (mono :: readings).length
          = tickNs.toInt + elapsed none readings.length := by
        simp only [elapsed, List.length_cons, Nat.cast_add, Nat.cast_one, Int.add_mul]
        omega
      change ((clock.tick mono).after readings).now = _
      rw [ih hnext, hnow, span_fixed, hsum, Int64.ofInt_add, Int64.ofInt_toInt, Int64.add_assoc]

theorem now_after_replay {clock : Vclock} {deltas : List Int64} (hholds : clock.Holds (some deltas))
    (readings : List Int64) : (clock.after readings).now
      = clock.now + Int64.ofInt (elapsed (some deltas) readings.length) := by
  induction readings generalizing clock deltas with
  | nil => exact (Int64.add_zero _).symm
  | cons mono readings ih =>
      obtain ⟨hmode, hdrop⟩ := hholds
      change ((clock.tick mono).after readings).now = _
      cases deltas with
      | nil =>
          have hget : clock.deltaBuf[clock.deltaI]? = none := by
            rw [← List.head?_drop, hdrop, List.head?_nil]
          have htick : clock.tick mono = { clock with ticks := clock.ticks + 0 } := by
            rw [tick, advance, delta, hmode]
            simp only [hget, hmode]
          rw [Int64.add_zero] at htick
          rw [htick, ih ⟨hmode, hdrop⟩, elapsed, elapsed, List.take_nil, List.take_nil]
      | cons head deltas =>
          have hget : clock.deltaBuf[clock.deltaI]? = some head := by
            rw [← List.head?_drop, hdrop, List.head?_cons]
          have htick : clock.tick mono
              = { clock with deltaI := clock.deltaI + 1, ticks := clock.ticks + head } := by
            rw [tick, advance, delta, hmode]
            simp only [hget]
          have hrest : clock.deltaBuf.drop (clock.deltaI + 1) = deltas := by
            rw [← List.tail_drop, hdrop, List.tail_cons]
          have hnow : (clock.tick mono).now = clock.now + head := by
            rw [htick]
            exact (Int64.add_assoc _ _ _).symm
          have hsum : elapsed (some (head :: deltas)) (mono :: readings).length
              = head.toInt + elapsed (some deltas) readings.length := by
            rw [elapsed, elapsed, List.length_cons, List.take_succ_cons]
            rfl
          have hnext : (clock.tick mono).Holds (some deltas) := by
            rw [htick]
            exact ⟨hmode, hrest⟩
          rw [ih hnext, hnow, hsum, Int64.ofInt_add, Int64.ofInt_toInt, Int64.add_assoc]

theorem now_after {clock : Vclock} {recorded : Option (List Int64)} (hholds : clock.Holds recorded)
    (readings : List Int64) :
    (clock.after readings).now = clock.now + Int64.ofInt (elapsed recorded readings.length) := by
  cases recorded with
  | none => exact now_after_fixed hholds readings
  | some deltas => exact now_after_replay hholds readings

end Vclock

namespace Shim

theorem sameTime_iff {first second : Shim} {clock clock' : Vclock}
    (hfirst : first.clock = some clock) (hsecond : second.clock = some clock') :
    SameTime first second ↔ clock.now = clock'.now := by
  constructor
  · rintro ⟨shown, shown', hshown, hshown', -, hsame, -⟩
    obtain rfl : shown = clock := Option.some.inj (hshown.symm.trans hfirst)
    obtain rfl : shown' = clock' := Option.some.inj (hshown'.symm.trans hsecond)
    have hquotient : shown.now / 1000000000 = shown'.now / 1000000000 := congrArg Prod.fst hsame
    have hrest : shown.now % 1000000000 = shown'.now % 1000000000 := congrArg Prod.snd hsame
    have hnow := Int.mul_tdiv_add_tmod shown.now.toInt (1000000000 : Int64).toInt
    have hnow' := Int.mul_tdiv_add_tmod shown'.now.toInt (1000000000 : Int64).toInt
    rw [← Vclock.toInt_div_pos _ (by decide), ← Int64.toInt_mod] at hnow hnow'
    rw [hquotient, hrest] at hnow
    exact Int64.toInt_inj.mp (hnow.symm.trans hnow')
  · exact fun hnow => sameTime_of_now hfirst hsecond hnow.symm

theorem start_reconstructs {env : Env} {files : Files} (hfiles : Reconstructs env files)
    (realtime mono : Int64) : ∃ clock, (Shim.start env realtime mono files).clock = some clock
      ∧ clock.now = (initBase realtime files).1 ∧ clock.Holds (recordedDeltas env files) := by
  obtain ⟨opened, hvclock, hdeltas, hstart⟩ := start_of_vclock hfiles.1 realtime mono files
  have hbase : (initBase realtime opened).1 = (initBase realtime files).1 := by
    rw [initBase, initBase, hvclock]
    cases files.vclock <;> rfl
  refine ⟨_, congrArg Shim.clock hstart, ?_⟩
  rw [vclockInit, recordedDeltas]
  cases henv : env.deltas with
  | false => exact ⟨(Int64.add_zero _).trans hbase, rfl⟩
  | true =>
      have hlong := hfiles.2 henv
      simp only [if_true, initDeltas, initBase_deltas, hdeltas, if_pos hlong]
      exact ⟨(Int64.add_zero _).trans hbase, rfl, List.drop_zero⟩

/-- The bytes read so far on a connection. -/
def consumed (shim : Shim) (connId : UInt32) : List Call → Bytes
  | [] => []
  | .read fd input mono :: calls =>
      (if shim.captures fd input = some connId then input else [])
        ++ consumed (shim.step (.read fd input mono)) connId calls
  | call :: calls => consumed (shim.step call) connId calls

end Shim

/-- Two runs on the same base and deltas, whatever reads they take: they show the same time exactly
if the numbers of their reads make the same of it. -/
theorem time_of_splits_iff {env : Env} {files files' : Files} (hfiles : Reconstructs env files)
    (hfiles' : Reconstructs env files') {realtime realtime' : Int64}
    (hbase : (initBase realtime files).1 = (initBase realtime' files').1)
    (hdeltas : files.deltas = files'.deltas) (mono mono' : Int64) (calls calls' : List Call) :
    let first := Shim.start env realtime mono files
    let second := Shim.start env realtime' mono' files'
    Shim.SameTime (run Shim.step first calls) (run Shim.step second calls')
      ↔ (elapsed (recordedDeltas env files) (first.readings calls).length
          - elapsed (recordedDeltas env files) (second.readings calls').length) % 2 ^ 64 = 0 := by
  intro first second
  obtain ⟨clock, hclock, hnow, hholds⟩ := Shim.start_reconstructs hfiles realtime mono
  obtain ⟨clock', hclock', hnow', hholds'⟩ := Shim.start_reconstructs hfiles' realtime' mono'
  have hrecorded : recordedDeltas env files' = recordedDeltas env files := by
    rw [recordedDeltas, recordedDeltas, hdeltas]
  rw [hrecorded] at hholds'
  rw [Shim.sameTime_iff (Shim.run_clock hclock calls).1 (Shim.run_clock hclock' calls').1,
    Vclock.now_after hholds, Vclock.now_after hholds', hnow, hnow', hbase, Int64.add_right_inj,
    ← Int64.toInt_inj, Int64.toInt_ofInt, Int64.toInt_ofInt, Int.bmod_eq_bmod_iff_bmod_sub_eq_zero,
    ← Int.dvd_iff_bmod_eq_zero, Int.dvd_iff_emod_eq_zero]
  rfl

/-- Deltas of ten and thirty nanoseconds. -/
def tenThirty : Files := { deltas := some (Wire.leBytes 8 10 ++ Wire.leBytes 8 30) }

/-- Three bytes on a connection, split in front of the last or behind the first: both times the clock
has gone on by both deltas. -/
theorem time_of_splits_two_deltas :
    Reconstructs { vclock := true, deltas := true } tenThirty ∧
      let start := Shim.start { vclock := true, deltas := true } 1782053569000000000 0 tenThirty
      let late := run Shim.step start [.accept 5, .read 5 [1, 2] 0, .read 5 [3] 0]
      let early := run Shim.step start [.accept 5, .read 5 [1] 0, .read 5 [2, 3] 0]
      Shim.SameTime late early
        ∧ late.clock.map Vclock.now = start.clock.map fun clock => clock.now + 40 := by
  have hfiles : Reconstructs { vclock := true, deltas := true } tenThirty :=
    ⟨rfl, fun _ => by decide +kernel⟩
  refine ⟨hfiles, ?_, by decide +kernel⟩
  exact (time_of_splits_iff hfiles hfiles rfl rfl 0 0 _ _).mpr (by decide +kernel)

/-- The first two bytes on a connection, in one read. -/
def oneRead : List Call := [.accept 5, .read 5 [1, 2] 0]

/-- The same two bytes, in two reads. -/
def twoReads : List Call := [.accept 5, .read 5 [1] 0, .read 5 [2] 0]

/-- With fixed ticks, one read leaves the clock a tick behind where two leave it. -/
theorem time_depends_on_split :
    ∃ files, Reconstructs { vclock := true } files ∧
      let start := Shim.start { vclock := true } 1782053569000000000 0 files
      (∀ connId, start.consumed connId oneRead = start.consumed connId twoReads)
        ∧ ¬ Shim.SameTime (run Shim.step start oneRead) (run Shim.step start twoReads) := by
  refine ⟨{}, ⟨rfl, nofun⟩, fun connId => ?_, ?_⟩
  · change (if some (1 : UInt32) = some connId then ([1, 2] : Bytes) else []) ++ []
      = (if some (1 : UInt32) = some connId then ([1] : Bytes) else [])
        ++ ((if some (1 : UInt32) = some connId then ([2] : Bytes) else []) ++ [])
    split <;> rfl
  · rintro ⟨clock, clock', hclock, hclock', -, hsame, -⟩
    have hone : (run Shim.step (Shim.start { vclock := true } 1782053569000000000 0 {})
        oneRead).clock.map Vclock.clockGettime = some (1782053569, 1000000) := by decide +kernel
    have htwo : (run Shim.step (Shim.start { vclock := true } 1782053569000000000 0 {})
        twoReads).clock.map Vclock.clockGettime = some (1782053569, 2000000) := by decide +kernel
    rw [hclock] at hone
    rw [hclock'] at htwo
    have hpairs := (Option.some.inj hone).symm.trans (hsame.trans (Option.some.inj htwo))
    exact absurd hpairs (by decide)

end OneBarrier.Interpose
