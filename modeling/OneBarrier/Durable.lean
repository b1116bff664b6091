import OneBarrier.State

/-!
# The durable log and snapshot

The two files a later process finds, and the steps that change them. A fault says where in a call
the process dies, or which step returns an error; the temporary snapshot file is not part of the
state because nothing reads it.
-/

namespace OneBarrier

open Wire

/-- The contents of `oplog` and `snapshot`, where they exist. -/
structure Disk where
  oplog : Option Bytes
  snapshot : Option Bytes
  deriving DecidableEq

def Disk.empty : Disk := { oplog := none, snapshot := none }

/-- How a call ends: it returns `Ok` or `Err`, or the process dies inside it. -/
inductive Outcome (α : Type) where
  | ok (value : α)
  | err
  | crash
  deriving DecidableEq

/-- Where a record's append is interrupted: before the file is opened, or once `written` bytes of
the record have reached it. -/
inductive AppendFault where
  | none
  | crashBefore
  | failBefore
  | crash (written : Nat)
  | fail (written : Nat)
  deriving DecidableEq

/-- Where installing a snapshot is interrupted. `keepLog` is the removal that silently fails. -/
inductive SnapshotFault where
  | none
  | crashBefore
  | failBefore
  | crashRenamed
  | keepLog
  | crashAfter
  deriving DecidableEq

namespace Durable

/-- `ts(8) len(4) op_bytes`. -/
def encodeRecord (ts : UInt64) (payload : Bytes) : Bytes :=
  leBytes 8 ts.toNat ++ (lengthBytes 4 payload.length ++ payload)

def append (fault : AppendFault) (disk : Disk) (ts : UInt64) (payload : Bytes) :
    Outcome Unit × Disk :=
  let log := disk.oplog.getD []
  let record := encodeRecord ts payload
  match fault with
  | .none => (.ok (), { disk with oplog := some (log ++ record) })
  | .crashBefore => (.crash, disk)
  | .failBefore => (.err, disk)
  | .crash written => (.crash, { disk with oplog := some (log ++ record.take written) })
  | .fail written => (.err, { disk with oplog := some (log ++ record.take written) })

/-- Rename the new snapshot into place, then remove the log it covers. -/
def writeSnapshot (fault : SnapshotFault) (disk : Disk) (bytes : Bytes) : Outcome Unit × Disk :=
  let renamed := { disk with snapshot := some bytes }
  let removed := { renamed with oplog := none }
  match fault with
  | .none => (.ok (), removed)
  | .crashBefore => (.crash, disk)
  | .failBefore => (.err, disk)
  | .crashRenamed => (.crash, renamed)
  | .keepLog => (.ok (), renamed)
  | .crashAfter => (.crash, removed)

/-- The timestamp and length in front of a record. -/
def readHeader : Reader (UInt64 × Nat) := do
  let ts ← u64
  let length ← u32
  pure (ts, length.toNat)

/-- The complete records in front of the first that is cut short, and the bytes from there on. -/
def splitRecords : Nat → Bytes → List (UInt64 × Bytes) × Bytes
  | 0, raw => ([], raw)
  | fuel + 1, raw =>
      match readHeader raw with
      | none => ([], raw)
      | some ((ts, length), rest) =>
          if length ≤ rest.length then
            let tail := splitRecords fuel (rest.drop length)
            ((ts, rest.take length) :: tail.1, tail.2)
          else ([], raw)

/-- Every complete record in order, as `(ts, op_bytes)`. A record takes twelve bytes or more, so the
length of the file bounds their number. -/
def readLog (disk : Disk) : List (UInt64 × Bytes) :=
  let raw := disk.oplog.getD []
  (splitRecords raw.length raw).1

/-- `raw[start..stop]`; a range outside the file panics. -/
def slice (raw : Bytes) (start stop : Nat) : Option Bytes :=
  if start ≤ stop ∧ stop ≤ raw.length then some ((raw.drop start).take (stop - start)) else none

/-- The sum of two `usize`s, which wraps. -/
def offset (position length : Nat) : Nat := (position + length) % 2 ^ 64

/-- The loop of `read_log` at its byte positions, up to `fuel` passes. -/
def readLoop (raw : Bytes) : Nat → Nat → Option (List (UInt64 × Bytes))
  | 0, _ => none
  | fuel + 1, p =>
      if offset p 12 ≤ raw.length then do
        let ts ← slice raw p (offset p 8)
        let size ← slice raw (offset p 8) (offset p 12)
        let length := leNat size
        let p := offset p 12
        if raw.length < offset p length then some []
        else
          let payload ← slice raw p (offset p length)
          let later ← readLoop raw fuel (offset p length)
          some ((UInt64.ofNat (leNat ts), payload) :: later)
      else some []

/-- The bytes of a partial record at the end of the log. -/
def tornTail (disk : Disk) : Bytes :=
  let raw := disk.oplog.getD []
  (splitRecords raw.length raw).2

end Durable

end OneBarrier
