import OneBarrier.OnePipe
import OneBarrier.Replica

/-!
# Engines on the fabric

`run_cluster` over the specified fabric: every process hands what the fabric delivers to it, in that
order, to an engine of its own. The fabric and the engines take their steps in any order, so an engine
may lag behind what was delivered, crash, come back, and adopt another's state while messages are in
flight.
-/

namespace OneBarrier.Replicated

open Wire OnePipe

variable {Proc : Type} [LinearOrder Proc]

/-- What a host makes of a delivery: a payload that is no op is passed over. -/
def recordOf (payload : Msg Proc → Bytes) (m : Msg Proc) : Option Record :=
  (Op.decode (payload m)).map fun op => (UInt64.ofNat m.ts, op)

def records (payload : Msg Proc → Bytes) (delivered : List (Msg Proc)) : List Record :=
  delivered.filterMap (recordOf payload)

structure System (Proc : Type) where
  fabric : OnePipe.State Proc
  hosts : Cluster Proc KvStore

namespace System

def start (intervals : Proc → UInt64) : System Proc :=
  { fabric := OnePipe.init, hosts := Cluster.start intervals }

/-- The stream a host works through. -/
def stream (payload : Msg Proc → Bytes) (system : System Proc) (index : Proc) : List Record :=
  records payload (system.fabric.delivered index)

/-- A host has worked through everything that was delivered to it. -/
def CaughtUp (payload : Msg Proc → Bytes) (system : System Proc) (index : Proc) : Prop :=
  (system.stream payload index).length ≤ (system.hosts.replicas index).next

end System

/-- The process whose host takes the step. -/
def host : ClusterEvent Proc → Proc
  | .replica index _ => index
  | .transfer index => index

/-- A step of the fabric, or a step of a host on the stream it has so far. -/
inductive Step (payload : Msg Proc → Bytes) (maxTs : Nat) (system : System Proc) :
    System Proc → Prop
  | fabric {next : OnePipe.State Proc} (hnext : Next maxTs system.fabric next) :
      Step payload maxTs system { system with fabric := next }
  | host (event : ClusterEvent Proc)
      (hallowed : system.hosts.Allowed Replica.since (system.stream payload (host event)) event) :
      Step payload maxTs system
        { system with hosts := system.hosts.step (system.stream payload (host event)) event }

def Reachable (payload : Msg Proc → Bytes) (maxTs : Nat) (intervals : Proc → UInt64)
    (system : System Proc) : Prop :=
  Relation.ReflTransGen (Step payload maxTs) (System.start intervals) system

end OneBarrier.Replicated
