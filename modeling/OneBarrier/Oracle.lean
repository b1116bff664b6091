import OneBarrier.Engine
import Mathlib.Data.List.Sort
import Mathlib.Logic.Function.Basic

/-!
# The cluster's workload and its oracle

`cluster.rs`: every client increments keys round-robin, a replica feeds whatever the fabric delivers
to its engine and counts what is not suppressed, and the state it should end with is computed from
the number of clients and ops alone.
-/

namespace OneBarrier

/-- Integer view of the store, sorted. -/
def KvStore.entries (store : KvStore) : List (String × Int64) :=
  store.map.toList.filterMap fun entry => (KvStore.asInt entry.2).map fun value => (entry.1, value)

namespace Oracle

def key (index : Nat) : String := "k" ++ toString index

/-- The INCR workload of a client: `seq` starts at 1. -/
def clientOps (client : UInt32) (ops keys : UInt64) : List Op :=
  (List.range ops.toNat).map fun i =>
    { client, seq := UInt64.ofNat i + 1, kind := .incr (key (i % keys.toNat)) 1 }

/-- Pairs are compared by their first components, then by their second. -/
def pairLe (first second : String × Int64) : Prop :=
  (compareLex (compareOn Prod.fst) (compareOn Prod.snd) first second).isLE = true

instance : DecidableRel pairLe := fun _ _ => inferInstanceAs (Decidable (_ = true))

/-- Every key gets the increments of every client. -/
def expectedState (clients : Nat) (ops keys : UInt64) : List (String × Int64) :=
  let sums := (List.range keys.toNat).map fun k =>
    (key k, (List.range clients).foldl
      (fun sum _ => sum + Int64.ofNat ((List.range ops.toNat).filter (· % keys.toNat = k)).length) 0)
  sums.insertionSort pairLe

/-- A replica's loop over what is delivered to it, and how many deliveries were not suppressed. -/
def feed (engine : Engine KvStore) (disk : Disk) (applied : Nat) :
    List Record → Engine KvStore × Disk × Nat
  | [] => (engine, disk, applied)
  | (ts, op) :: stream =>
      match engine.deliver Faults.clean disk ts op with
      | (.ok out, engine, disk) =>
          feed engine disk (if out = .suppressed then applied else applied + 1) stream
      | (_, engine, disk) => (engine, disk, applied)

/-- A stream that takes the ops each client has left in the client's order, at any timestamps, and
repeats ops it has delivered wherever it likes. -/
inductive Delivers : (UInt32 → List Op) → List Op → List Record → Prop
  | done {left : UInt32 → List Op} {delivered : List Op} (hleft : ∀ client, left client = []) :
      Delivers left delivered []
  | next {left : UInt32 → List Op} {delivered rest : List Op} {op : Op} {stream : List Record}
      (ts : UInt64) (client : UInt32) (hclient : left client = op :: rest)
      (hstream : Delivers (Function.update left client rest) (op :: delivered) stream) :
      Delivers left delivered ((ts, op) :: stream)
  | again {left : UInt32 → List Op} {delivered : List Op} {op : Op} {stream : List Record}
      (ts : UInt64) (hdelivered : op ∈ delivered) (hstream : Delivers left delivered stream) :
      Delivers left delivered ((ts, op) :: stream)

/-- What the clients have to send. -/
def workload (clients : List UInt32) (ops keys : UInt64) (client : UInt32) : List Op :=
  if client ∈ clients then clientOps client ops keys else []

end Oracle

end OneBarrier
