import OneBarrier.AppJepsen
import OneBarrier.Frontend.Resp
import OneBarrier.Server

/-!
# The linearizability check of the server

`ob_lincheck.rs`: client threads write and read one register of a running server over RESP. Each records
its operations with the time before the request and the time after the reply, and when all of them
have ended the checker judges what they have recorded. The server is the one modelled here, with its
connection threads, its queue and its executor.
-/

namespace OneBarrier.LinCheck

open Wire Utf8 Text Linearizability

/-- How many clients there are, and how many operations each of them does. -/
structure Load where
  clients : Nat
  opsPerClient : Nat
  deriving DecidableEq

/-- The numbers of the harness. -/
def Load.harness : Load := { clients := 4, opsPerClient := 9 }

/-- The value a client writes in a round. -/
def value (client round : Nat) : Int64 := (Int64.ofNat client + 1) * 100 + Int64.ofNat round

/-- The words of a client's command. -/
def command (client round : Nat) : List Bytes :=
  if round % 2 = 0 then [asBytes "SET", asBytes "reg", asBytes (showI64 (value client round))]
  else [asBytes "GET", asBytes "reg"]

/-- The same function as in the crash harness. -/
def parseGet (reply : Bytes) : Int64 := AppJepsen.parseGet reply

/-- What is recorded of a round with this reply; the reply to a write is not looked at. -/
def action (client round : Nat) (reply : Bytes) : Action :=
  if round % 2 = 0 then .write (value client round) else .read (parseGet reply)

/-- Where a client thread stands: at the head of its loop, with its request on the way, with the server
at work on it, with the reply on the way, before the push, and at its end. -/
inductive Pc where
  | top
  | sent (inv : UInt64)
  | taken (inv : UInt64)
  | answered (inv : UInt64) (reply : Bytes)
  | record (op : LinOp)
  | finished
  deriving DecidableEq

structure Client where
  round : Nat := 0
  pc : Pc := .top
  deriving DecidableEq

/-- A client's connection has the client's number; `clock` is what `now` gives. -/
structure State where
  world : World resp
  clock : UInt64
  clients : Nat → Client
  history : List LinOp

namespace State

def start (world : World resp) : State :=
  { world, clock := 0, clients := fun _ => {}, history := [] }

def set (state : State) (client : Nat) (next : Client) : State :=
  { state with clients := Function.update state.clients client next }

def goto (state : State) (client : Nat) (pc : Pc) : State :=
  state.set client { state.clients client with pc }

end State

inductive Event where
  | tick (time : UInt64)
  | client (client : Nat)
  | server (event : WorldEvent resp)

/-- What the event is to the server. -/
def Event.served : Event → Option (WorldEvent resp)
  | .server event => some event
  | _ => none

/-- One step of a client thread. While its request is on the way there is nothing for it to do. -/
def clientStep (load : Load) (state : State) (client : Nat) : Option State :=
  let thread := state.clients client
  match thread.pc with
  | .top =>
      some (state.goto client (if thread.round < load.opsPerClient then .sent state.clock else .finished))
  | .answered inv reply =>
      some (state.goto client (.record
        { procId := UInt32.ofNat client
          action := action client thread.round reply
          inv
          res := state.clock }))
  | .record op =>
      some { state.set client { round := thread.round + 1, pc := .top } with
        history := state.history ++ [op] }
  | .sent _ | .taken _ | .finished => none

/-- One step of the server: it reads the requests the clients have sent, and its replies go to them. It
runs in the process of the harness, so there is nothing that outlives it. -/
def serverStep (state : State) (event : WorldEvent resp) : Option State :=
  let next := { state with world := state.world.step event }
  match event with
  | .request handle args =>
      match (state.clients handle).pc, (state.world.threads handle).phase with
      | .sent inv, .idle =>
          let words : List Bytes := args
          if words = command handle (state.clients handle).round then
            some (next.goto handle (.taken inv))
          else none
      | _, _ => none
  | .reply handle =>
      match (state.clients handle).pc, (state.world.threads handle).phase with
      | .taken inv, .serving (.ret turn) => some (next.goto handle (.answered inv turn.output))
      | _, _ => none
  | .execute faults _ => if faults = Faults.clean then some next else none
  | .accept _ _ | .disconnect _ | .send _ | .receive _ => some next
  | .crash | .restart _ => none

def next (load : Load) (state : State) : Event → Option State
  | .tick time => if state.clock ≤ time then some { state with clock := time } else none
  | .client client => if client < load.clients then clientStep load state client else none
  | .server event => serverStep state event

def step (load : Load) (state : State) (event : Event) : State := (next load state event).getD state

/-- The event can happen. -/
def Enabled (load : Load) (state : State) (event : Event) : Prop :=
  (next load state event).isSome = true

instance (load : Load) (state : State) (event : Event) : Decidable (Enabled load state event) :=
  inferInstanceAs (Decidable (_ = true))

/-- All client threads have ended. -/
def Joined (load : Load) (state : State) : Prop :=
  ∀ client < load.clients, (state.clients client).pc = .finished

instance (load : Load) (state : State) : Decidable (Joined load state) :=
  inferInstanceAs (Decidable (∀ client < load.clients, _))

/-- What the harness prints. -/
def verdict (state : State) : Bool := isLinearizable state.history 0

/-- The harness writes the register once before the clients start, over a connection of its own. -/
def initialise (handle : Nat) : List (WorldEvent resp) :=
  [.accept handle 1, .request handle [asBytes "SET", asBytes "reg", asBytes "0"], .send handle,
    .execute Faults.clean 0, .receive handle, .reply handle]

end OneBarrier.LinCheck
