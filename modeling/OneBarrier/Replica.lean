import OneBarrier.History
import Mathlib.Logic.Function.Basic

/-!
# Replicas of one op stream

Every replica is handed the same totally ordered stream, each at its own pace, with its own crashes
and its own snapshots, and may adopt the exported state of another. `next` is where its delivery
stands; `reached` is how much of the stream the replica reflects, in memory and on disk.
-/

namespace OneBarrier

open Wire

structure Replica (S : Type) where
  disk : Disk
  engine : Option (Engine S)
  next : Nat
  reached : Nat
  given : Nat
  since : Nat

structure Cluster (ι S : Type) where
  replicas : ι → Replica S
  exports : List (Bytes × Nat)

inductive ReplicaEvent where
  | advance (faults : Faults)
  | redeliver (faults : Faults) (position : Nat)
  | crash
  | recover (interval : UInt64) (position : Nat)
  | adopt (state : Nat) (position : Nat)
  deriving DecidableEq

inductive ClusterEvent (ι : Type) where
  | replica (index : ι) (event : ReplicaEvent)
  | transfer (index : ι)
  deriving DecidableEq

variable {ι S : Type} [StateMachine S]

namespace Replica

def create (interval : UInt64) : Replica S :=
  { disk := Disk.empty, engine := some (Engine.create interval)
    next := 0, reached := 0, given := 0, since := 0 }

/-- Hand the replica the op at a position of the stream. The op counts as reached once it is a
duplicate or its record is complete. -/
def hand (stream : List Record) (replica : Replica S) (faults : Faults) (position : Nat) :
    Replica S :=
  match replica.engine, stream[position]? with
  | some engine, some (ts, op) =>
      let taken := (engine.applyDedup ts op).1.isNone
        || faults.append.completes (Durable.encodeRecord ts op.encode)
      let handed := { replica with
        given := max replica.given (position + 1)
        since := max replica.since (position + 1)
        reached := if taken then max replica.reached (position + 1) else replica.reached }
      match engine.deliver faults replica.disk ts op with
      | (.ok _, engine, disk) | (.err, engine, disk) => { handed with disk, engine := some engine }
      | (.crash, _, disk) => { handed with disk, engine := none }
  | _, _ => replica

/-- Adopt a state exported by a replica that had reached `count` ops, and resume at `position`. -/
def adopt (replica : Replica S) (state : Bytes × Nat) (position : Nat) : Replica S :=
  match replica.engine with
  | none => replica
  | some engine =>
      match engine.importState .none replica.disk state.1 with
      | (_, engine, disk) =>
          { replica with
            disk, engine := some engine
            next := position, reached := state.2, since := state.2 }

def step (stream : List Record) (exports : List (Bytes × Nat)) (replica : Replica S) :
    ReplicaEvent → Replica S
  | .advance faults =>
      match replica.engine, stream[replica.next]? with
      | some _, some _ => { replica.hand stream faults replica.next with next := replica.next + 1 }
      | _, _ => replica
  | .redeliver faults position => replica.hand stream faults position
  | .crash => { replica with engine := none }
  | .recover interval position =>
      { replica with engine := some (Engine.recover replica.disk interval), next := position }
  | .adopt state position =>
      match exports[state]? with
      | some state => replica.adopt state position
      | none => replica

end Replica

namespace Cluster

/-- Fresh replicas, each with its own snapshot interval. -/
def start (intervals : ι → UInt64) : Cluster ι S :=
  { replicas := fun index => Replica.create (intervals index), exports := [] }

def step [DecidableEq ι] (stream : List Record) (cluster : Cluster ι S) :
    ClusterEvent ι → Cluster ι S
  | .replica index event =>
      { cluster with
        replicas := Function.update cluster.replicas index
          ((cluster.replicas index).step stream cluster.exports event) }
  | .transfer index =>
      match (cluster.replicas index).engine with
      | some engine =>
          { cluster with
            exports := cluster.exports ++ [(engine.exportState, (cluster.replicas index).reached)] }
      | none => cluster

end Cluster

/-! ### What a run may do -/

/-- The faults of a call are crashes between two durable steps. -/
def Faults.Atomic (stream : List Record) (position : Nat) (faults : Faults) : Prop :=
  (∀ record ∈ stream[position]?,
    faults.append.IsAtomic (Durable.encodeRecord record.1 record.2.encode)) ∧
      faults.snapshot ≠ .failBefore

instance (stream : List Record) (position : Nat) (faults : Faults) :
    Decidable (faults.Atomic stream position) := inferInstanceAs (Decidable (_ ∧ _))

/-- Re-deliveries are of ops given to the replica at any time, or only of ops that are in the state
it adopted or were given to it since. Delivery resumes at or before the first op that was not made
durable, and after adopting a state at or before that state's end. -/
def Replica.Allowed (given : Replica S → Nat) (stream : List Record) (exports : List (Bytes × Nat))
    (replica : Replica S) : ReplicaEvent → Prop
  | .advance faults => faults.Atomic stream replica.next
  | .redeliver faults position => faults.Atomic stream position ∧ position < given replica
  | .crash => True
  | .recover _ position => position ≤ replica.reached
  | .adopt state position => ∀ exported ∈ exports[state]?, position ≤ exported.2

instance (given : Replica S → Nat) (stream : List Record) (exports : List (Bytes × Nat))
    (replica : Replica S) (event : ReplicaEvent) :
    Decidable (replica.Allowed given stream exports event) := by
  cases event <;> unfold Replica.Allowed <;> infer_instance

def Cluster.Allowed (given : Replica S → Nat) (stream : List Record) (cluster : Cluster ι S) :
    ClusterEvent ι → Prop
  | .replica index event =>
      (cluster.replicas index).Allowed given stream cluster.exports event
  | .transfer _ => True

instance (given : Replica S → Nat) (stream : List Record) (cluster : Cluster ι S)
    (event : ClusterEvent ι) : Decidable (cluster.Allowed given stream event) := by
  cases event <;> unfold Cluster.Allowed <;> infer_instance

end OneBarrier
