import Mathlib.Data.Finset.Card
import Mathlib.Logic.Function.Basic
import Mathlib.Logic.Relation

/-!
# The engine's TLA+ specification

`OneBarrierEngine.tla`, for any set of clients and without the bound on sequence numbers that keeps
the model checker's state space finite: an `INCR` counter behind a per-client high-water mark, a
durable log and a durable snapshot, and crashes that lose everything else.
-/

namespace OneBarrier.Spec

structure Op (Client : Type) where
  client : Client
  seq : Nat
  deriving DecidableEq

/-- The variables. `applied` and `acked` are ghosts; `acked` is never rolled back. -/
@[ext]
structure State (Client : Type) where
  value : Int
  hw : Client → Nat
  applied : Finset (Op Client)
  acked : Finset (Op Client)
  durLog : List (Op Client)
  snapVal : Int
  snapHW : Client → Nat
  snapApplied : Finset (Op Client)
  crashed : Bool

variable {Client : Type} [DecidableEq Client]

def init : State Client where
  value := 0
  hw _ := 0
  applied := ∅
  acked := ∅
  durLog := []
  snapVal := 0
  snapHW _ := 0
  snapApplied := ∅
  crashed := false

/-- In order per client: the next op, or one already applied. -/
def Deliver (op : Op Client) (state next : State Client) : Prop :=
  state.crashed = false ∧ 1 ≤ op.seq ∧ op.seq ≤ state.hw op.client + 1 ∧
    next =
      if state.hw op.client < op.seq then
        { state with
          value := state.value + 1
          hw := Function.update state.hw op.client op.seq
          applied := insert op state.applied
          durLog := state.durLog ++ [op]
          acked := insert op state.acked }
      else state

def Snapshot (state next : State Client) : Prop :=
  state.crashed = false ∧
    next = { state with
      snapVal := state.value, snapHW := state.hw, snapApplied := state.applied, durLog := [] }

def Crash (state next : State Client) : Prop :=
  state.crashed = false ∧
    next = { state with crashed := true, value := 0, hw := fun _ => 0, applied := ∅ }

/-- What replay keeps track of. -/
structure Progress (Client : Type) where
  value : Int
  applied : Finset (Op Client)
  hw : Client → Nat

def replay : List (Op Client) → Progress Client → Progress Client
  | [], progress => progress
  | op :: ops, progress =>
      if progress.hw op.client < op.seq then
        replay ops
          { value := progress.value + 1
            applied := insert op progress.applied
            hw := Function.update progress.hw op.client op.seq }
      else replay ops progress

def Recover (state next : State Client) : Prop :=
  state.crashed = true ∧
    let progress := replay state.durLog
      { value := state.snapVal, applied := state.snapApplied, hw := state.snapHW }
    next = { state with
      value := progress.value, applied := progress.applied, hw := progress.hw, crashed := false }

def Next (state next : State Client) : Prop :=
  (∃ op, Deliver op state next) ∨ Snapshot state next ∨ Crash state next ∨ Recover state next

def Reachable (state : State Client) : Prop := Relation.ReflTransGen Next init state

/-! ### The checked properties -/

def ExactlyOnce (state : State Client) : Prop :=
  state.crashed = false → state.value = state.applied.card

def NoLostAck (state : State Client) : Prop := state.crashed = false → state.acked ⊆ state.applied

def SnapshotConsistent (state : State Client) : Prop := state.snapVal = state.snapApplied.card

def AckedDurable (state : State Client) : Prop :=
  ∀ op ∈ state.acked, op ∈ state.snapApplied ∨ op ∈ state.durLog

end OneBarrier.Spec
