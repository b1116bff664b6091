import OneBarrier.Bench
import OneBarrier.Proof.Accounts
import OneBarrier.Proof.Workload

/-!
# The rows of the sweep

Every op of the sweep is new to its engine, so a row is the quotient and the remainder of the number of
ops by the interval.
-/

namespace OneBarrier.Bench

open Durable

/-- What `sweepRecord` gives where it does not panic. -/
def passRecord (keys i : UInt64) : Record :=
  (i + 1, { client := 1, seq := i + 1, kind := .incr (Oracle.key (i % keys).toNat) 1 })

/-- A run of the sweep feeds its ops to the engine. -/
theorem sweepRun_eq {keys : UInt64} (hkeys : keys ≠ 0) (passes : List UInt64)
    (engine : Engine KvStore) (disk : Disk) (applied : Nat) :
    sweepRun keys engine disk passes
      = some ((Oracle.feed engine disk applied (passes.map (passRecord keys))).1,
        (Oracle.feed engine disk applied (passes.map (passRecord keys))).2.1) := by
  induction passes generalizing engine disk applied with
  | nil => rfl
  | cons i passes ih =>
      obtain ⟨out, next, after, hdeliver⟩ := deliver_clean_ok engine disk (passRecord keys i).1
        (passRecord keys i).2
      have hrun : sweepRun keys engine disk (i :: passes) = sweepRun keys next after passes := by
        have hrecord : sweepRecord keys i = some ((passRecord keys i).1, (passRecord keys i).2) :=
          if_neg hkeys
        rw [sweepRun, hrecord]
        dsimp only
        rw [hdeliver]
      have hfeed : Oracle.feed engine disk applied ((i :: passes).map (passRecord keys))
          = Oracle.feed next after (if out = .suppressed then applied else applied + 1)
            (passes.map (passRecord keys)) := by
        rw [List.map_cons, Oracle.feed, hdeliver]
      rw [hrun, hfeed]
      exact ih next after _

/-- The sequence numbers ascend, so every op is new. -/
theorem taken_passes {keys : UInt64} {core : Core KvStore} {start count : Nat}
    (hmark : core.highWater 1 = UInt64.ofNat start) (hword : start + count < 18446744073709551616) :
    (dedup KvStore).taken core
      (((List.range' start count).map UInt64.ofNat).map (passRecord keys)) = count := by
  induction count generalizing core start with
  | zero => rfl
  | succ count ih =>
      have hseq : UInt64.ofNat start + 1 = UInt64.ofNat (start + 1) := by
        rw [UInt64.ofNat_add]
        rfl
      have hfresh : (dedup KvStore).fresh core (passRecord keys (UInt64.ofNat start)) := by
        change core.highWater 1 < UInt64.ofNat start + 1
        rw [hmark, hseq, UInt64.lt_iff_toNat_lt,
          UInt64.toNat_ofNat_of_lt' (show start < 18446744073709551616 by omega),
          UInt64.toNat_ofNat_of_lt' (show start + 1 < 18446744073709551616 by omega)]
        exact Nat.lt_succ_self start
      have hnext : ((dedup KvStore).apply core (passRecord keys (UInt64.ofNat start))).highWater 1
          = UInt64.ofNat (start + 1) := by
        rw [← hseq]
        exact (Core.highWater_applyDedup 1 hfresh).trans (if_pos rfl)
      rw [List.range'_succ, List.map_cons, List.map_cons, Journal.Machine.taken, if_pos hfresh,
        Journal.Machine.deliver_of_fresh hfresh, ih hnext (by omega), Nat.add_comm]

/-- **The rows of the sweep**: for every list of intervals, any number of ops and keys whose state fits
a snapshot, a row shows one snapshot for every full interval, and a recovery that replays the ops
behind the last of them. -/
theorem sweepSnapshotInterval_eq {keys : UInt64} (hkeys : 1 ≤ keys) (hfits : keys ≤ 16777216)
    (ops : UInt64) (intervals : List UInt64) :
    sweepSnapshotInterval intervals ops keys = some (intervals.map fun interval =>
      { interval, ops
        snapshots := ops / max interval 1
        replayRecords := ops % max interval 1 }) := by
  have hpositive : 0 < keys.toNat := UInt64.le_iff_toNat_le.mp hkeys
  have hnonzero : keys ≠ 0 := by
    rintro rfl
    exact Nat.lt_irrefl 0 hpositive
  let stream := ((List.range ops.toNat).map UInt64.ofNat).map (passRecord keys)
  have hcounts : ∀ record ∈ stream, Oracle.Counts [1] keys.toNat record.2 := by
    intro record hrecord
    obtain ⟨i, -, rfl⟩ := List.mem_map.mp hrecord
    refine ⟨List.mem_singleton.mpr rfl, (i % keys).toNat, ?_, rfl⟩
    rw [UInt64.toNat_mod]
    exact Nat.mod_lt _ hpositive
  have hstream : StreamFits KvStore stream :=
    Oracle.streamFits_of_counts hcounts (by decide) (UInt64.le_iff_toNat_le.mp hfits)
  have hrow : ∀ interval, sweepInterval ops keys interval = some
      { interval, ops
        snapshots := ops / max interval 1
        replayRecords := ops % max interval 1 } := by
    intro interval
    have hword := ops.toNat_lt
    have htaken : ((dedup KvStore).accepted Core.init stream).length = ops.toNat := by
      have hall := @taken_passes keys Core.init 0 ops.toNat rfl (by omega)
      rwa [← List.range_eq_range', ← Journal.Machine.length_accepted] at hall
    obtain ⟨-, -, -, hbooks⟩ := Oracle.feed_create hstream interval
    have hstats := hbooks.stats
    have hrecover := hbooks.recover_eq rfl (Oracle.toNat_max_one_pos interval)
    have hdiv : UInt64.ofNat (ops.toNat / (max interval 1).toNat) = ops / max interval 1 := by
      rw [← UInt64.toNat_div, UInt64.ofNat_toNat]
    have hmod : UInt64.ofNat (ops.toNat % (max interval 1).toNat) = ops % max interval 1 := by
      rw [← UInt64.toNat_mod, UInt64.ofNat_toNat]
    have hrun : sweepRun keys (Engine.create interval) Disk.empty
        ((List.range ops.toNat).map UInt64.ofNat)
          = some ((Oracle.feed (Engine.create interval) Disk.empty 0 stream).1,
            (Oracle.feed (Engine.create interval) Disk.empty 0 stream).2.1) :=
      sweepRun_eq hnonzero _ _ _ 0
    rw [sweepInterval, hrun, Option.map_some, hrecover, hstats, htaken, hdiv, hmod]
  rw [sweepSnapshotInterval]
  induction intervals with
  | nil => rfl
  | cons interval intervals ih =>
      rw [List.mapM_cons, hrow, ih]
      rfl

/-- An interval of zero counts as one. -/
theorem sweepSnapshotInterval_eq_small :
    sweepSnapshotInterval [0, 2, 5] 4 3 = some [
      { interval := 0, ops := 4, snapshots := 4, replayRecords := 0 },
      { interval := 2, ops := 4, snapshots := 2, replayRecords := 0 },
      { interval := 5, ops := 4, snapshots := 0, replayRecords := 4 }] := by
  rw [sweepSnapshotInterval_eq (by decide) (by decide)]
  decide

end OneBarrier.Bench
