import OneBarrier.State
import OneBarrier.Interpose
import OneBarrier.Lib.Interleave

/-!
# Replaying a capture log

`ob-replay` reads the records of a capture log, puts each connection's bytes together, and sends
every connection's stream from a thread of its own. The server it sends them to is any program that
keeps a state and executes whole requests as they arrive.
-/

namespace OneBarrier.Replay

open Wire Interpose Interleave

/-- The records of the log, up to one that is cut short. A record takes eight bytes or more, so the
length of the file bounds their number. -/
def parse : Nat → Bytes → List (UInt32 × Bytes)
  | 0, _ => []
  | fuel + 1, raw =>
      match u32 raw with
      | none => []
      | some (connId, rest) =>
          match u32 rest with
          | none => []
          | some (length, rest) =>
              match bytes length.toNat rest with
              | none => []
              | some (input, rest) => (connId, input) :: parse fuel rest

/-- The connections in first-seen order, and the bytes of each. -/
structure Streams where
  order : List UInt32 := []
  conns : BTreeMap UInt32 Bytes := ∅

def Streams.add (streams : Streams) (record : UInt32 × Bytes) : Streams where
  order := if streams.conns.contains record.1 then streams.order else streams.order ++ [record.1]
  conns := streams.conns.insert record.1 (streams.conns[record.1]?.getD [] ++ record.2)

/-- What the threads send: a connection and its whole stream each. -/
def streams (raw : Bytes) : List (UInt32 × Bytes) :=
  let streams := (parse raw.length raw).foldl Streams.add {}
  streams.order.map fun connId => (connId, streams.conns[connId]?.getD [])

/-- A server as far as replay is concerned. Its reads return whole requests, each of them below the
four gigabytes a record's length can say. -/
structure Server (σ ρ : Type) where
  init : σ
  step : σ → ρ → σ
  encode : ρ → Bytes
  frame : Bytes → List ρ
  frame_encode : ∀ requests, frame (requests.flatMap encode) = requests
  length_encode : ∀ request, (encode request).length < 2 ^ 32

variable {σ ρ : Type}

/-- The capture log of requests in the order they arrived. -/
def Server.capture (server : Server σ ρ) (log : List (UInt32 × ρ)) : Bytes :=
  log.flatMap fun entry => encodeCapture entry.1 (server.encode entry.2)

/-- An order in which a fresh instance may execute what the threads send: every connection's requests
in the order of its stream. -/
def Server.Schedules (server : Server σ ρ) (raw : Bytes) (schedule : List (UInt32 × ρ)) : Prop :=
  (∀ stream ∈ streams raw, project stream.1 schedule = server.frame stream.2)
    ∧ ∀ entry ∈ schedule, entry.1 ∈ (streams raw).map Prod.fst

end OneBarrier.Replay
