import OneBarrier.Durable

/-!
# The replication engine

The engine applies a totally ordered op stream with a per-client high-water mark, logs every op it
applies, and cuts a snapshot every `snapInterval` ops. Recovery loads the snapshot and replays the
log through the same dedup.
-/

namespace OneBarrier

open Wire

/-- One op with the timestamp it was delivered at. -/
abbrev Record := UInt64 × Op

/-- What the engine computes from the op stream: the state, the per-client high-water marks, and the
highest applied timestamp. -/
@[ext]
structure Core (S : Type) where
  state : S
  applied : BTreeMap UInt32 UInt64
  lastTs : UInt64
  deriving DecidableEq

structure Stats where
  applied : UInt64 := 0
  suppressed : UInt64 := 0
  snapshots : UInt64 := 0
  replayed : UInt64 := 0
  deriving DecidableEq

structure Engine (S : Type) extends Core S where
  snapInterval : UInt64
  opsSinceSnap : UInt64
  stats : Stats
  deriving DecidableEq

variable {S : Type} [StateMachine S]

namespace Core

/-- The core of a fresh engine. -/
def init : Core S := { state := StateMachine.default, applied := ∅, lastTs := 0 }

/-- The highest seq applied for a client, `0` for one never seen. -/
def highWater (core : Core S) (client : UInt32) : UInt64 := core.applied[client]?.getD 0

/-- Apply with exactly-once dedup; `none` is a duplicate. -/
def applyDedup (core : Core S) (ts : UInt64) (op : Op) : Option Output × Core S :=
  if op.seq ≤ core.highWater op.client then (none, core)
  else
    let result := StateMachine.apply core.state op
    (some result.2,
      { state := result.1
        applied := core.applied.insert op.client op.seq
        lastTs := if core.lastTs < ts then ts else core.lastTs })

def maxClient (core : Core S) : UInt32 := core.applied.keys.max?.getD 0

def encodeMark (mark : UInt32 × UInt64) : Bytes := leBytes 4 mark.1.toNat ++ leBytes 8 mark.2.toNat

/-- `last_ts(8) count(4) [client(4) seq(8)]* len(4) state`. -/
def encodeSnapshot (core : Core S) : Bytes :=
  leBytes 8 core.lastTs.toNat ++ (lengthBytes 4 core.applied.size ++
    (core.applied.toList.flatMap encodeMark ++
      (lengthBytes 4 (StateMachine.snapshot core.state).length ++ StateMachine.snapshot core.state)))

/-- Up to `count` high-water marks, stopping at the first that is cut short, and the bytes the
reader has left. -/
def loadMarks : Nat → Bytes → BTreeMap UInt32 UInt64 → BTreeMap UInt32 UInt64 × Bytes
  | 0, input, marks => (marks, input)
  | count + 1, input, marks =>
      match u32 input with
      | none => (marks, input)
      | some (client, rest) =>
          match u64 rest with
          | none => (marks, rest)
          | some (seq, rest) => loadMarks count rest (marks.insert client seq)

/-- Load a snapshot; bytes that are too short leave the core as it was. -/
def loadSnapshot (core : Core S) (input : Bytes) : Core S :=
  match u64 input with
  | none => core
  | some (lastTs, rest) =>
      match u32 rest with
      | none => core
      | some (count, rest) =>
          let marks := loadMarks count.toNat rest ∅
          match u32 marks.2 with
          | none => core
          | some (length, rest) =>
              match bytes length.toNat rest with
              | none => core
              | some (state, _) => { state := StateMachine.restore state, applied := marks.1, lastTs }

/-- Replay one log record; a payload that does not decode is skipped. The count is of the records
that were applied. -/
def replayRecord (progress : Core S × UInt64) (record : UInt64 × Bytes) : Core S × UInt64 :=
  match Op.decode record.2 with
  | none => progress
  | some op =>
      match progress.1.applyDedup record.1 op with
      | (none, _) => progress
      | (some _, core) => (core, progress.2 + 1)

end Core

/-- The faults of one call. -/
structure Faults where
  append : AppendFault
  snapshot : SnapshotFault
  deriving DecidableEq

/-- No step of the call is interrupted. -/
def Faults.clean : Faults := { append := .none, snapshot := .none }

namespace Engine

/-- A fresh engine. -/
def create (interval : UInt64) : Engine S :=
  { toCore := Core.init, snapInterval := max interval 1, opsSinceSnap := 0, stats := {} }

/-- The core `recover` starts replaying the log from. -/
def loaded (disk : Disk) : Core S :=
  match disk.snapshot with
  | some bytes => Core.init.loadSnapshot bytes
  | none => Core.init

def recover (disk : Disk) (interval : UInt64) : Engine S :=
  let progress := (Durable.readLog disk).foldl Core.replayRecord (loaded disk, 0)
  { toCore := progress.1
    snapInterval := max interval 1
    opsSinceSnap := progress.2 % max interval 1
    stats := { replayed := progress.2 } }

def snapshot (fault : SnapshotFault) (engine : Engine S) (disk : Disk) :
    Outcome Unit × Engine S × Disk :=
  match Durable.writeSnapshot fault disk engine.encodeSnapshot with
  | (.ok (), disk) =>
      (.ok (), { engine with
        opsSinceSnap := 0
        stats := { engine.stats with snapshots := engine.stats.snapshots + 1 } }, disk)
  | (.err, disk) => (.err, engine, disk)
  | (.crash, disk) => (.crash, engine, disk)

/-- Snapshot if `snapInterval` ops have been applied since the last one. -/
def snapshotIfDue (fault : SnapshotFault) (engine : Engine S) (disk : Disk) (out : Output) :
    Outcome Output × Engine S × Disk :=
  if engine.snapInterval ≤ engine.opsSinceSnap then
    match engine.snapshot fault disk with
    | (.ok (), engine, disk) => (.ok out, engine, disk)
    | (.err, engine, disk) => (.err, engine, disk)
    | (.crash, engine, disk) => (.crash, engine, disk)
  else (.ok out, engine, disk)

/-- The live delivery path: apply, append, maybe snapshot. The op is applied in memory before its
record is written. -/
def deliver (faults : Faults) (engine : Engine S) (disk : Disk) (ts : UInt64) (op : Op) :
    Outcome Output × Engine S × Disk :=
  match engine.applyDedup ts op with
  | (none, _) =>
      (.ok .suppressed, { engine with
        stats := { engine.stats with suppressed := engine.stats.suppressed + 1 } }, disk)
  | (some out, core) =>
      let engine := { engine with
        toCore := core
        stats := { engine.stats with applied := engine.stats.applied + 1 } }
      match Durable.append faults.append disk ts op.encode with
      | (.ok (), disk) =>
          snapshotIfDue faults.snapshot
            { engine with opsSinceSnap := engine.opsSinceSnap + 1 } disk out
      | (.err, disk) => (.err, engine, disk)
      | (.crash, disk) => (.crash, engine, disk)

def exportState (engine : Engine S) : Bytes := engine.encodeSnapshot

/-- Adopt a peer's exported state, persist it, and drop the log it supersedes. -/
def importState (fault : SnapshotFault) (engine : Engine S) (disk : Disk) (bytes : Bytes) :
    Outcome Unit × Engine S × Disk :=
  let engine := { engine with toCore := engine.loadSnapshot bytes }
  match Durable.writeSnapshot fault disk bytes with
  | (.ok (), disk) => (.ok (), { engine with opsSinceSnap := 0 }, disk)
  | (.err, disk) => (.err, engine, disk)
  | (.crash, disk) => (.crash, engine, disk)

end Engine

/-- The serial reference: the op stream applied to a fresh state machine with the same dedup and no
persistence. -/
def referenceApply (S : Type) [StateMachine S] (ops : List Op) : S :=
  (ops.foldl
    (fun (progress : S × BTreeMap UInt32 UInt64) op =>
      if progress.2[op.client]?.getD 0 < op.seq then
        ((StateMachine.apply progress.1 op).1, progress.2.insert op.client op.seq)
      else progress)
    (StateMachine.default, ∅)).1

end OneBarrier
