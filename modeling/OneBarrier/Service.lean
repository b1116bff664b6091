import OneBarrier.Engine
import OneBarrier.Lib.Input

/-!
# Front-ends and the service behind them

A front-end turns the bytes of a connection into calls on the shared service. Every iteration of its
loop first reads one request and then serves it; serving is a conversation with the service, which
answers each call, or answers nothing once its executor is gone.
-/

namespace OneBarrier

open Wire Input

/-- Calls on the service, and what is done with each answer. -/
inductive Conv (α : Type) where
  | ret (value : α)
  | apply (op : Op) (next : Option Output → Conv α)
  | len (next : Option Nat → Conv α)

namespace Conv

variable {α β : Type}

def bind : Conv α → (α → Conv β) → Conv β
  | ret value, after => after value
  | apply op next, after => apply op fun out => (next out).bind after
  | len next, after => len fun count => (next count).bind after

instance : Monad Conv where
  pure := ret
  bind := bind

/-- `KvService::apply`. -/
def applied (op : Op) : Conv (Option Output) := apply op ret

/-- `KvService::len`. -/
def counted : Conv (Option Nat) := len ret

/-- The ops of a conversation and its result, the service answering from a state of its own. -/
def against {σ : Type} (answer : σ → Op → σ × Option Output) (count : σ → Option Nat) :
    Conv α → σ → List Op × α
  | ret value, _ => ([], value)
  | apply op next, state =>
      let rest := (next (answer state op).2).against answer count (answer state op).1
      (op :: rest.1, rest.2)
  | len next, state => (next (count state)).against answer count state

end Conv

/-- What one pass of a connection's read loop comes to: a request to serve, a pass that is repeated,
or the end of the connection. -/
inductive Received (ρ : Type) where
  | request (request : ρ)
  | again
  | close
  deriving DecidableEq

/-- The end of one pass: the connection's variables, the bytes written, and whether it goes on. -/
structure Turn (κ : Type) where
  conn : κ
  output : Bytes
  close : Bool := false

/-- A protocol's `serve_conn`. -/
structure Frontend where
  Conn : Type
  Request : Type
  init : Conn
  read : Reading (Received Request)
  serve : UInt32 → Conn → Request → Conv (Turn Conn)

namespace Frontend

/-- The connection's loop from a given point on, up to `fuel` passes; its result is everything it
writes. -/
def converse (frontend : Frontend) (client : UInt32) :
    Nat → frontend.Conn → Source → Conv Bytes
  | 0, _, _ => .ret []
  | fuel + 1, conn, source =>
      match frontend.read source with
      | (.close, _) => .ret []
      | (.again, rest) => frontend.converse client fuel conn rest
      | (.request request, rest) => do
          let turn ← frontend.serve client conn request
          if turn.close then pure turn.output
          else
            let later ← frontend.converse client fuel turn.conn rest
            pure (turn.output ++ later)

/-- The whole loop from the current point: every pass takes something off the source or ends it. -/
def session (frontend : Frontend) (client : UInt32) (conn : frontend.Conn) (source : Source) :
    Conv Bytes := frontend.converse client (source.length + 1) conn source

end Frontend

end OneBarrier
