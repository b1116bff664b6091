import OneBarrier.AppJepsen
import OneBarrier.Frontend.Resp
import OneBarrier.Server

/-!
# The crash check of the server

`ob_jepsen.rs`: client threads write keys of their own over RESP while the server is killed and started
again on its directory. A write that was in flight when its connection broke is not tried again. At the
end every write that was acknowledged is read back. The server is the one modelled here.
-/

namespace OneBarrier.Jepsen

open Wire Utf8 Text AppJepsen

/-- How many clients there are, and how many writes each of them does. -/
structure Load where
  clients : Nat
  ops : Nat
  deriving DecidableEq

def key (client round : Nat) : String := "c" ++ toString client ++ "_" ++ toString round

def val (client round : Nat) : String := "v" ++ toString client ++ "_" ++ toString round

def setRequest (key val : String) : List Bytes := [asBytes "SET", asBytes key, asBytes val]

def getRequest (key : String) : List Bytes := [asBytes "GET", asBytes key]

/-- Whether the reply is an acknowledgement. -/
def doSet (reply : Bytes) : Bool := reply.take 3 = asBytes "+OK"

/-- The value in a reply. -/
def get (reply : Bytes) : Option String :=
  let text := (fromUtf8Lossy reply).toList
  if "$-1".toList.isPrefixOf text then none else (splitCrlf text)[1]?.map String.ofList

/-- What is on its way over a connection; a client sends nothing more before it has the reply. -/
inductive Channel where
  | quiet
  | request (words : List Bytes)
  | reply (bytes : Bytes)
  deriving DecidableEq

/-- Where a client thread stands: at the head of its loop, behind its request, and at its end. -/
inductive Pc where
  | top
  | waiting
  | finished
  deriving DecidableEq

structure Client where
  round : Nat := 0
  conn : Option Nat := none
  pc : Pc := .top
  acked : List (String × String) := []
  unknown : Nat := 0
  deriving DecidableEq

namespace Client

def advance (client : Client) : Client := { client with round := client.round + 1, pc := .top }

def ack (client : Client) (key val : String) : Client :=
  { client.advance with acked := client.acked ++ [(key, val)] }

def miss (client : Client) : Client :=
  { client.advance with conn := none, unknown := client.unknown + 1 }

end Client

/-- How far the harness is: the clients write, or what they have had acknowledged is read back, over a
connection, with these writes left, until a read fails. -/
inductive Stage where
  | load
  | verify (conn : Nat) (left : List (String × String)) (waiting : Bool)
  -- The read has timed out, or the connection is gone. Replies that still come are not modelled: as
  -- here, every later read fails too.
  | broken (failed : Nat) (left : List (String × String))
  deriving DecidableEq

/-- The connection over which the main thread reads. -/
def Stage.conn : Stage → Option Nat
  | .load | .broken _ _ => none
  | .verify conn _ _ => some conn

/-- How many reads of the main thread have failed. -/
def Stage.failed : Stage → Nat
  | .load | .verify _ _ _ => 0
  | .broken failed _ => failed

/-- Connections are numbered as they are opened. -/
structure State where
  world : World resp
  opened : Nat
  channels : Nat → Channel
  clients : Nat → Client
  stage : Stage
  lost : Nat
  torn : Nat

namespace State

def start (interval : UInt64) : State :=
  { world := World.start interval, opened := 0, channels := fun _ => .quiet, clients := fun _ => {}
    stage := .load, lost := 0, torn := 0 }

/-- A new connection. -/
def connect (state : State) (id : UInt32) : State :=
  { state with world := state.world.step (.accept state.opened id), opened := state.opened + 1 }

def setClient (state : State) (client : Nat) (next : Client) : State :=
  { state with clients := Function.update state.clients client next }

def put (state : State) (conn : Nat) (channel : Channel) : State :=
  { state with channels := Function.update state.channels conn channel }

end State

/-- All client threads have ended. -/
def Joined (load : Load) (state : State) : Prop :=
  ∀ client < load.clients, (state.clients client).pc = .finished

instance (load : Load) (state : State) : Decidable (Joined load state) :=
  inferInstanceAs (Decidable (∀ client < load.clients, _))

/-- What the main thread has when it has joined them. -/
def allAcked (load : Load) (state : State) : List (String × String) :=
  (List.range load.clients).flatMap fun client => (state.clients client).acked

/-- The connection is still in the hands of a client or of the main thread. -/
def Held (load : Load) (state : State) (conn : Nat) : Prop :=
  (∃ client < load.clients, (state.clients client).conn = some conn) ∨ state.stage.conn = some conn

instance (load : Load) (state : State) (conn : Nat) : Decidable (Held load state conn) :=
  inferInstanceAs (Decidable (_ ∨ _))

/-- What a client, or the main thread, can do next. -/
inductive Move where
  | connect (id : UInt32)
  | giveUp
  | send
  | read
  | eof
  | fail
  | finish
  deriving DecidableEq

inductive Event where
  | client (client : Nat) (move : Move)
  | verify (move : Move)
  | probe (id : UInt32)
  | server (event : WorldEvent resp)

/-- One step of a client thread. A connection may break, or the reply not come in time, at any point.
A connection that the server's end has closed reads as an empty reply, which is no acknowledgement. -/
def clientStep (load : Load) (state : State) (client : Nat) (move : Move) : Option State :=
  let thread := state.clients client
  let key := key client thread.round
  let val := val client thread.round
  if thread.pc = .top ∧ thread.round < load.ops then
    match thread.conn, move with
    | none, .connect id =>
        if state.world.running then
          some ((state.connect id).setClient client { thread with conn := some state.opened })
        else none
    | none, .giveUp => some (state.setClient client thread.miss)
    | some conn, .send =>
        some ((state.put conn (.request (setRequest key val))).setClient client
          { thread with pc := .waiting })
    | some _, .fail => some (state.setClient client thread.miss)
    | _, _ => none
  else if thread.pc = .top then
    match move with
    | .finish => some (state.setClient client { thread with conn := none, pc := .finished })
    | _ => none
  else if thread.pc = .waiting then
    match thread.conn, move with
    | some conn, .read =>
        match state.channels conn with
        | .reply bytes =>
            some ((state.put conn .quiet).setClient client
              (if doSet bytes then thread.ack key val else thread.advance))
        | _ => none
    | some conn, .eof =>
        match state.channels conn, (state.world.threads conn).phase with
        | .reply _, _ => none
        | _, .closed => some ((state.put conn .quiet).setClient client thread.advance)
        | _, _ => none
    | some _, .fail => some (state.setClient client thread.miss)
    | _, _ => none
  else none

/-- One step of the main thread when the clients have ended: it takes a connection, and over it reads
one key after the other. A read that fails counts as lost. -/
def verifyStep (load : Load) (state : State) (move : Move) : Option State :=
  match state.stage, move with
  | .load, .connect id =>
      if Joined load state ∧ state.world.running = true then
        some { state.connect id with stage := .verify state.opened (allAcked load state) false }
      else none
  | .verify conn ((key, val) :: left) false, .send =>
      some { state.put conn (.request (getRequest key)) with
        stage := .verify conn ((key, val) :: left) true }
  | .verify conn ((_, val) :: left) true, .read =>
      match state.channels conn with
      | .reply bytes =>
          let next := { state.put conn .quiet with stage := .verify conn left false }
          match get bytes with
          | none => some { next with lost := next.lost + 1 }
          | some got => some (if got = val then next else { next with torn := next.torn + 1 })
      | _ => none
  | .verify _ (_ :: left) _, .fail =>
      some { state with stage := .broken 1 left, lost := state.lost + 1 }
  | .broken failed (_ :: left), .fail =>
      some { state with stage := .broken (failed + 1) left, lost := state.lost + 1 }
  | _, _ => none

/-- One step of the server. It takes what a connection has for it and puts its reply there. It is
killed, and its disk calls are cut short, only while the clients write, and it closes no connection
that the other end still holds. -/
def serverStep (load : Load) (state : State) (event : WorldEvent resp) : Option State :=
  let next := { state with world := state.world.step event }
  match event with
  | .request handle args =>
      match state.channels handle, (state.world.threads handle).phase with
      | .request words, .idle =>
          let asked : List Bytes := args
          if asked = words then some (next.put handle .quiet) else none
      | _, _ => none
  | .reply handle =>
      match (state.world.threads handle).phase with
      | .serving (.ret turn) => some (next.put handle (.reply turn.output))
      | _ => none
  | .disconnect handle => if Held load state handle then none else some next
  | .execute faults _ =>
      if state.stage = .load ∨ faults = Faults.clean then some next else none
  | .crash => if state.stage = .load then some next else none
  | .send _ | .receive _ | .restart _ => some next
  | .accept _ _ => none

/-- A step of the harness or of its server. A probe is the connection with which the main thread sees
that the server is up. -/
def next (load : Load) (state : State) : Event → Option State
  | .client client move =>
      if client < load.clients ∧ state.stage = .load then clientStep load state client move else none
  | .verify move => verifyStep load state move
  | .probe id =>
      if state.stage = .load ∧ state.world.running = true then some (state.connect id) else none
  | .server event => serverStep load state event

def step (load : Load) (state : State) (event : Event) : State := (next load state event).getD state

/-- What the event is to the server. -/
def served (state : State) : Event → List (WorldEvent resp)
  | .client _ (.connect id) | .verify (.connect id) | .probe id => [.accept state.opened id]
  | .server event => [event]
  | _ => []

/-- The event can happen. -/
def Enabled (load : Load) (state : State) (event : Event) : Prop :=
  (next load state event).isSome = true

instance (load : Load) (state : State) (event : Event) : Decidable (Enabled load state event) :=
  inferInstanceAs (Decidable (_ = true))

end OneBarrier.Jepsen
