import OneBarrier.Engine

/-!
# The engine between its durable steps

`deliver` and `snapshot` cut at the points where a crash makes a difference: an op is applied in
memory, then its record is appended; a snapshot is renamed into place, then the log it covers is
removed. Next to the state stand the core from before an op that is not logged yet, and the records
whose append is done.
-/

namespace OneBarrier

inductive Stage where
  | idle
  | applied (before : Core KvStore) (ts : UInt64) (op : Op)
  | due
  | renamed
  deriving DecidableEq

structure Process where
  disk : Disk
  engine : Option (Engine KvStore)
  stage : Stage
  appended : List Record
  deriving DecidableEq

inductive Action where
  | apply (ts : UInt64) (op : Op)
  | append
  | rename
  | remove (kept : Bool)
  | crash
  | recover (interval : UInt64)
  deriving DecidableEq

namespace Process

/-- A fresh engine on an empty directory. -/
def start (interval : UInt64) : Process :=
  { disk := Disk.empty, engine := some (Engine.create interval), stage := .idle, appended := [] }

def apply (process : Process) (engine : Engine KvStore) (ts : UInt64) (op : Op) : Process :=
  match engine.applyDedup ts op with
  | (none, _) =>
      { process with
        engine := some { engine with
          stats := { engine.stats with suppressed := engine.stats.suppressed + 1 } } }
  | (some _, core) =>
      { process with
        engine := some { engine with
          toCore := core, stats := { engine.stats with applied := engine.stats.applied + 1 } }
        stage := .applied engine.toCore ts op }

def append (process : Process) (engine : Engine KvStore) (ts : UInt64) (op : Op) : Process :=
  let engine := { engine with opsSinceSnap := engine.opsSinceSnap + 1 }
  { disk := (Durable.append .none process.disk ts op.encode).2
    engine := some engine
    stage := if engine.snapInterval ≤ engine.opsSinceSnap then .due else .idle
    appended := process.appended ++ [(ts, op)] }

def rename (process : Process) (engine : Engine KvStore) : Process :=
  { process with
    disk := { process.disk with snapshot := some engine.encodeSnapshot }, stage := .renamed }

/-- A log that cannot be removed is kept; the error is dropped. -/
def remove (process : Process) (engine : Engine KvStore) (kept : Bool) : Process :=
  { process with
    disk := if kept then process.disk else { process.disk with oplog := none }
    engine := some { engine with
      opsSinceSnap := 0
      stats := { engine.stats with snapshots := engine.stats.snapshots + 1 } }
    stage := .idle }

/-- A step that does not come next is not taken. `snapshot` may also be called by itself. -/
def step (process : Process) (action : Action) : Process :=
  match process.engine, action, process.stage with
  | some engine, .apply ts op, .idle => process.apply engine ts op
  | some engine, .append, .applied _ ts op => process.append engine ts op
  | some engine, .rename, .idle | some engine, .rename, .due => process.rename engine
  | some engine, .remove kept, .renamed => process.remove engine kept
  | some _, .crash, _ => { process with engine := none, stage := .idle }
  | none, .recover interval, _ =>
      { process with engine := some (Engine.recover process.disk interval) }
  | _, _, _ => process

end Process

end OneBarrier
