import OneBarrier.Engine
import OneBarrier.Lib.Run

/-!
# An engine through its crashes

A directory outlives the processes that open it. A history is the directory, the engine of the
process that has it open, if any, and a record of what has happened: the ops whose log record was
written in full, the outputs `deliver` returned, and the ops that were inside `deliver` when the
process died.
-/

namespace OneBarrier

open Wire

structure History (S : Type) where
  disk : Disk
  engine : Option (Engine S)
  appended : List Record
  acked : List (Record × Output)
  inFlight : List Record
  deriving DecidableEq

inductive Event where
  | deliver (faults : Faults) (ts : UInt64) (op : Op)
  | snapshot (fault : SnapshotFault)
  | crash
  | recover (interval : UInt64)
  deriving DecidableEq

/-- Whether the whole record reaches the log. -/
def AppendFault.completes (fault : AppendFault) (record : Bytes) : Bool :=
  match fault with
  | .none => true
  | .crashBefore | .failBefore => false
  | .crash written | .fail written => record.length ≤ written

variable {S : Type} [StateMachine S]

/-- Whether this delivery leaves the op's whole record in the log. A suppressed op is not logged. -/
def Engine.logs (engine : Engine S) (faults : Faults) (ts : UInt64) (op : Op) : Bool :=
  (engine.applyDedup ts op).1.isSome
    && faults.append.completes (Durable.encodeRecord ts op.encode)

namespace History

/-- A fresh engine on an empty directory. -/
def start (interval : UInt64) : History S :=
  { disk := Disk.empty, engine := some (Engine.create interval)
    appended := [], acked := [], inFlight := [] }

/-- What has been appended once this delivery is over. -/
def logged (history : History S) (engine : Engine S) (faults : Faults) (ts : UInt64) (op : Op) :
    List Record :=
  if engine.logs faults ts op then history.appended ++ [(ts, op)] else history.appended

def deliver (history : History S) (engine : Engine S) (faults : Faults) (ts : UInt64) (op : Op) :
    History S :=
  let appended := history.logged engine faults ts op
  match engine.deliver faults history.disk ts op with
  | (.ok out, engine, disk) =>
      { history with
        disk, appended, engine := some engine
        acked := if out = .suppressed then history.acked else history.acked ++ [((ts, op), out)] }
  | (.err, engine, disk) => { history with disk, appended, engine := some engine }
  | (.crash, _, disk) =>
      { history with
        disk, appended, engine := none
        inFlight := history.inFlight ++ [(ts, op)] }

def snapshot (history : History S) (engine : Engine S) (fault : SnapshotFault) : History S :=
  match engine.snapshot fault history.disk with
  | (.ok (), engine, disk) | (.err, engine, disk) => { history with disk, engine := some engine }
  | (.crash, _, disk) => { history with disk, engine := none }

/-- A call needs a live engine. `crash` falls between two calls; inside a call it is a fault of the
call. -/
def step (history : History S) : Event → History S
  | .deliver faults ts op =>
      match history.engine with
      | some engine => history.deliver engine faults ts op
      | none => history
  | .snapshot fault =>
      match history.engine with
      | some engine => history.snapshot engine fault
      | none => history
  | .crash => { history with engine := none }
  | .recover interval => { history with engine := some (Engine.recover history.disk interval) }

end History

/-! ### Crash models -/

/-- The append is cut by a crash at some byte, or not at all. -/
def AppendFault.IsCrash : AppendFault → Prop
  | .none | .crashBefore | .crash _ => True
  | .failBefore | .fail _ => False

/-- The append is cut by a crash before its first byte or after its last, or not at all. -/
def AppendFault.IsAtomic (record : Bytes) : AppendFault → Prop
  | .none | .crashBefore => True
  | .crash written => written = 0 ∨ record.length ≤ written
  | .failBefore | .fail _ => False

/-- Crashes that may leave a partial record behind; no step returns an error. -/
def Event.Torn : Event → Prop
  | .deliver faults _ _ => faults.append.IsCrash ∧ faults.snapshot ≠ .failBefore
  | .snapshot fault => fault ≠ .failBefore
  | .crash | .recover _ => True

/-- Crashes between two durable steps; no step returns an error. -/
def Event.RecordAtomic : Event → Prop
  | .deliver faults ts op =>
      faults.append.IsAtomic (Durable.encodeRecord ts op.encode) ∧ faults.snapshot ≠ .failBefore
  | .snapshot fault => fault ≠ .failBefore
  | .crash | .recover _ => True

instance (fault : AppendFault) : Decidable fault.IsCrash := by
  cases fault <;> unfold AppendFault.IsCrash <;> infer_instance

instance (record : Bytes) (fault : AppendFault) : Decidable (fault.IsAtomic record) := by
  cases fault <;> unfold AppendFault.IsAtomic <;> infer_instance

instance (event : Event) : Decidable event.Torn := by
  cases event <;> unfold Event.Torn <;> infer_instance

instance (event : Event) : Decidable event.RecordAtomic := by
  cases event <;> unfold Event.RecordAtomic <;> infer_instance

/-! ### The serial run -/

/-- The outputs of one run over a stream with no crash and no snapshot; `none` is a duplicate. -/
def Core.outputs (core : Core S) : List Record → List (Option Output)
  | [] => []
  | (ts, op) :: records =>
      (core.applyDedup ts op).1 :: outputs (core.applyDedup ts op).2 records

end OneBarrier
