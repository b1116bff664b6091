import OneBarrier.Oracle

/-!
# The snapshot-interval sweep

`bench.rs`: for each interval the same increments go through a fresh engine, which is then dropped and
recovered from its directory. A row holds how many snapshots the run took and how many records the
recovery replayed. The timings are left out.
-/

namespace OneBarrier.Bench

structure SnapResult where
  interval : UInt64
  ops : UInt64
  snapshots : UInt64
  replayRecords : UInt64
  deriving DecidableEq

/-- The op of one pass and its timestamp. The key is a remainder by `keys`. -/
def sweepRecord (keys i : UInt64) : Option Record :=
  if keys = 0 then none
  else some (i + 1,
    { client := 1, seq := i + 1, kind := .incr (Oracle.key (i % keys).toNat) 1 })

/-- The passes of one run; a failed delivery is unwrapped. -/
def sweepRun (keys : UInt64) (engine : Engine KvStore) (disk : Disk) :
    List UInt64 → Option (Engine KvStore × Disk)
  | [] => some (engine, disk)
  | i :: passes =>
      match sweepRecord keys i with
      | none => none
      | some (ts, op) =>
          match engine.deliver Faults.clean disk ts op with
          | (.ok _, engine, disk) => sweepRun keys engine disk passes
          | _ => none

/-- One row. The directory is removed before the run. -/
def sweepInterval (ops keys interval : UInt64) : Option SnapResult :=
  (sweepRun keys (Engine.create interval) Disk.empty
    ((List.range ops.toNat).map UInt64.ofNat)).map fun run =>
      { interval, ops
        snapshots := run.1.stats.snapshots
        replayRecords := (Engine.recover run.2 interval : Engine KvStore).stats.replayed }

/-- `none` where the sweep panics. -/
def sweepSnapshotInterval (intervals : List UInt64) (ops keys : UInt64) : Option (List SnapResult) :=
  intervals.mapM (sweepInterval ops keys)

end OneBarrier.Bench
