import OneBarrier.Linearizability
import OneBarrier.Lib.Run
import OneBarrier.Lib.Text
import Mathlib.Logic.Function.Basic

/-!
# The crash harness

`ob_app_jepsen.rs`: client threads write and read a shared register, the server is killed and
recovered, and what the threads have recorded of the register is checked together with a read after
the recovery. The server is not part of this code: it is taken to answer each request from one
register, at some point between the request and the reply, and to keep the register across the crash.
-/

namespace OneBarrier.AppJepsen

open Wire Utf8 Text Linearizability

/-! ### Requests and replies -/

/-- The requests on `REG`. -/
inductive Request where
  | set (value : Bytes)
  | get
  deriving DecidableEq

/-- The register with the request done, and the reply. -/
def respond (register : Option Bytes) : Request → Option Bytes × Bytes
  | .set value => (some value, asBytes "+OK\r\n")
  | .get =>
      match register with
      | none => (none, asBytes "$-1\r\n")
      | some value =>
          (some value,
            asBytes ("$" ++ toString value.length ++ "\r\n") ++ value ++ asBytes "\r\n")

/-- `split("\r\n")`. -/
def splitCrlf : List Char → List (List Char)
  | [] => [[]]
  | '\r' :: '\n' :: text => [] :: splitCrlf text
  | char :: text => (splitCrlf text).modifyHead (char :: ·)

def parseGet (reply : Bytes) : Int64 :=
  let text := (fromUtf8Lossy reply).toList
  if "$-1".toList.isPrefixOf text then 0
  else ((splitCrlf text)[1]?.bind parseI64).getD 0

/-! ### The harness -/

def nclients : Nat := 8

def regCap : Nat := 32

/-- The value a client writes in a round. -/
def writeValue (cid seq : Nat) : Int64 := Int64.ofNat cid * 1000000 + Int64.ofNat seq

/-- Where a client thread stands: before its connection, at the head of its loop, behind the request
with the unique key, behind it with the reply read, behind the check of the cap, behind a request on
the register, behind its reply, before the push, and at its end. -/
inductive Pc where
  | connect
  | top
  | writing
  | check
  | send
  | setting (value : Int64) (inv : UInt64)
  | getting (inv : UInt64)
  | count (op : LinOp)
  | push (op : LinOp)
  | finished
  deriving DecidableEq

/-- A client thread with its connection: the request that the server has not taken and the reply that
the client has not read. -/
structure Client where
  seq : Nat := 0
  pc : Pc := .connect
  inbox : Option Request := none
  outbox : Option Bytes := none
  deriving DecidableEq

/-- How far the main thread is; at the end with the history that it checks. -/
inductive Main where
  | load
  | stopping
  | killed
  | recovered
  | checked (history : List LinOp)
  deriving DecidableEq

def Main.serving : Main → Bool
  | .load | .stopping => true
  | _ => false

def Main.replaying : Main → Bool
  | .load | .stopping | .killed => true
  | _ => false

/-- `clock` is what `now` gives; it does not go back. -/
structure State where
  clients : Nat → Client
  register : Option Bytes
  clock : UInt64
  regOps : Nat
  hist : List LinOp
  main : Main

namespace State

def init : State where
  clients := fun _ => {}
  register := none
  clock := 0
  regOps := 0
  hist := []
  main := .load

def set (state : State) (cid : Nat) (client : Client) : State :=
  { state with clients := Function.update state.clients cid client }

def goto (state : State) (cid : Nat) (pc : Pc) : State :=
  state.set cid { state.clients cid with pc }

end State

/-- The reply to a request on the register, or the end of the connection: nothing comes to an end
while the server runs. -/
def receive (state : State) (cid : Nat) (ok : Bool) (next : Bytes → Pc) : Option State :=
  let client := state.clients cid
  if ok then
    client.outbox.map fun reply => state.set cid { client with outbox := none, pc := next reply }
  else if state.main.serving then none
  else some (state.goto cid .finished)

/-- One step of a client thread; `ok` is how its call of the connection ends, where it is in one. -/
def clientStep (state : State) (cid : Nat) (ok : Bool) : Option State :=
  let client := state.clients cid
  match client.pc with
  | .connect => some (state.goto cid (if ok then .top else .finished))
  | .top =>
      if state.main = .load then
        some (state.set cid { client with seq := client.seq + 1, pc := .writing })
      else some (state.goto cid .finished)
  | .writing =>
      if ok then some (state.goto cid .check)
      else if state.main.serving then none
      else some (state.goto cid .finished)
  | .check => some (state.goto cid (if state.regOps < regCap then .send else .top))
  | .send =>
      if client.seq % 2 = 0 then
        let value := writeValue cid client.seq
        some (state.set cid
          { client with
            pc := .setting value state.clock
            inbox := some (.set (asBytes (showI64 value))) })
      else
        some (state.set cid { client with pc := .getting state.clock, inbox := some .get })
  | .setting value inv =>
      receive state cid ok fun reply =>
        if (asBytes "+OK").isPrefixOf reply then
          .count { procId := UInt32.ofNat cid, action := .write value, inv, res := state.clock }
        else .top
  | .getting inv =>
      receive state cid ok fun reply =>
        .count
          { procId := UInt32.ofNat cid
            action := .read (parseGet reply)
            inv
            res := state.clock }
  | .count op =>
      some { state.goto cid (if state.regOps < regCap then .push op else .top) with
        regOps := state.regOps + 1 }
  | .push op => some { state.goto cid .top with hist := state.hist ++ [op] }
  | .finished => none

/-- The server takes a request, or the replay of what it has received does; then there is nobody left
to answer. -/
def execute (state : State) (cid : Nat) : Option State :=
  let client := state.clients cid
  if state.main.replaying then
    client.inbox.map fun request =>
      let (register, reply) := respond state.register request
      { state.set cid
          { client with
            inbox := none
            outbox := if state.main.serving then some reply else none } with
        register }
  else none

/-- The history with the read after the recovery. -/
def State.extended (state : State) (res : UInt64) : List LinOp :=
  state.hist ++
    [{ procId := 999
       action := .read (parseGet (respond state.register .get).2)
       inv := state.clock
       res }]

inductive Event where
  | tick (time : UInt64)
  | client (cid : Nat) (ok : Bool)
  | execute (cid : Nat)
  | stop
  | kill
  | recover
  | check (res : UInt64)
  deriving DecidableEq

def next (state : State) : Event → Option State
  | .tick time => if state.clock ≤ time then some { state with clock := time } else none
  | .client cid ok => if cid < nclients then clientStep state cid ok else none
  | .execute cid => execute state cid
  | .stop => if state.main = .load then some { state with main := .stopping } else none
  | .kill => if state.main = .stopping then some { state with main := .killed } else none
  | .recover =>
      if state.main = .killed ∧ ∀ cid < nclients, (state.clients cid).pc = .finished then
        some { state with main := .recovered }
      else none
  | .check res =>
      if state.main = .recovered ∧ state.clock ≤ res then
        some { state with main := .checked (state.extended res) }
      else none

def step (state : State) (event : Event) : State := (next state event).getD state

/-- The event can happen. -/
def Enabled (state : State) (event : Event) : Prop := (next state event).isSome = true

instance (state : State) (event : Event) : Decidable (Enabled state event) :=
  inferInstanceAs (Decidable (_ = true))

/-- Whatever the history says was read was written by an operation of the history, unless it is what
the register starts with. -/
def Grounded (history : List LinOp) : Prop :=
  ∀ value, value ≠ 0 → .read value ∈ history.map LinOp.action →
    .write value ∈ history.map LinOp.action

end OneBarrier.AppJepsen
