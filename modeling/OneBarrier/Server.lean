import OneBarrier.History
import OneBarrier.Service
import OneBarrier.Lib.Linear
import Mathlib.Logic.Function.Basic

/-!
# The server process

Connection threads, the queue between them and the executor, the executor that owns the engine, and
the directory that outlives all of them. Every step is one thread's; a run is any interleaving. A
failed delivery ends the executor, which the connections see only as calls that are not answered. A
crash takes the whole process, and a restart opens the directory again.

Next to the state stands what has happened: the calls made and answered, the calls in the order
their records were written, the requests a connection has served, and for every reply the ops issued
for it, with their answers, and those of them that were logged.
-/

namespace OneBarrier

open Wire

inductive Req where
  | apply (op : Op)
  | len
  deriving DecidableEq

/-- A request in the executor's queue, and where its answer goes. -/
structure Job where
  handle : Nat
  call : Nat
  req : Req
  deriving DecidableEq

/-- Where a connection thread stands. While it waits for an answer it holds what it does next, and
the answer once it is there. -/
inductive Phase (frontend : Frontend) where
  | closed
  | idle
  | serving (conv : Conv (Turn frontend.Conn))
  | applying (op : Op) (next : Option Output → Conv (Turn frontend.Conn)) (answer : Option Output)
  | counting (next : Option Nat → Conv (Turn frontend.Conn)) (answer : Option Nat)

structure Thread (frontend : Frontend) where
  client : UInt32
  conn : frontend.Conn
  phase : Phase frontend
  request : Option frontend.Request := none
  earlier : List frontend.Request := []
  call : Nat := 0
  answers : List (Op × Option Output) := []
  logged : List Op := []

/-- A reply as written, with the connection's variables when the request came and the requests it
had served before. -/
structure Served (frontend : Frontend) where
  client : UInt32
  conn : frontend.Conn
  request : Option frontend.Request
  earlier : List frontend.Request
  answers : List (Op × Option Output)
  logged : List Op
  output : Bytes

structure World (frontend : Frontend) where
  history : History KvStore
  running : Bool
  clock : UInt64
  nextId : UInt32
  queue : List Job
  threads : Nat → Thread frontend
  calls : Nat
  trace : List (Linear.Action Op Output)
  taken : List (Linear.Taken Op Output)
  replies : List (Served frontend)

/-- One step of one thread. `tick` is what the process-wide counter reads. -/
inductive WorldEvent (frontend : Frontend) where
  | accept (handle : Nat) (client : UInt32)
  | disconnect (handle : Nat)
  | request (handle : Nat) (request : frontend.Request)
  | send (handle : Nat)
  | execute (faults : Faults) (tick : UInt64)
  | receive (handle : Nat)
  | reply (handle : Nat)
  | crash
  | restart (interval : UInt64)

/-- `KvService::start` recovers a directory that holds anything, and creates an engine in one that
does not. -/
def startEngine (disk : Disk) (interval : UInt64) : Engine KvStore :=
  if disk.snapshot.isSome || disk.oplog.isSome then Engine.recover disk interval
  else Engine.create interval

/-- The thread goes on with the answer to its call. -/
def Thread.resume {frontend : Frontend} (thread : Thread frontend) (op : Op)
    (next : Option Output → Conv (Turn frontend.Conn)) (answer : Option Output) :
    Thread frontend :=
  { thread with phase := .serving (next answer), answers := thread.answers ++ [(op, answer)] }

/-- The answer reaches the thread that waits for it. -/
def Phase.answer {frontend : Frontend} : Phase frontend → Output → Phase frontend
  | .applying op next _, out => .applying op next (some out)
  | phase, _ => phase

def Phase.answerLen {frontend : Frontend} : Phase frontend → Nat → Phase frontend
  | .counting next _, count => .counting next (some count)
  | phase, _ => phase

namespace World

variable {frontend : Frontend}

def start (interval : UInt64) : World frontend :=
  let engine := startEngine Disk.empty interval
  { history := { (History.start interval : History KvStore) with engine := some engine }
    running := true
    clock := engine.lastTs + 1
    nextId := engine.maxClient + 1
    queue := []
    threads := fun _ => { client := 0, conn := frontend.init, phase := .closed }
    calls := 0, trace := [], taken := [], replies := [] }

/-- A process that opens a directory. -/
def boot (disk : Disk) (interval : UInt64) : World frontend :=
  let engine := startEngine disk interval
  { history := { disk, engine := some engine, appended := [], acked := [], inFlight := [] }
    running := true
    clock := engine.lastTs + 1
    nextId := engine.maxClient + 1
    queue := []
    threads := fun _ => { client := 0, conn := frontend.init, phase := .closed }
    calls := 0, trace := [], taken := [], replies := [] }

def set (world : World frontend) (handle : Nat) (thread : Thread frontend) : World frontend :=
  { world with threads := Function.update world.threads handle thread }

/-- The executor has ended, and with it the queue. -/
def executorGone (world : World frontend) : World frontend :=
  { world with history := world.history.step .crash, queue := [] }

def crash (world : World frontend) : World frontend :=
  { world.executorGone with
    running := false
    threads := fun handle => { world.threads handle with phase := .closed } }

/-- A thread's call: into the queue, or unanswered at once when the executor is gone. -/
def send (world : World frontend) (handle : Nat) : World frontend :=
  let thread := world.threads handle
  match thread.phase with
  | .serving (.apply op next) =>
      if world.history.engine.isSome then
        { world.set handle
            { thread with phase := .applying op next none, call := world.calls } with
          queue := world.queue ++ [{ handle, call := world.calls, req := .apply op }]
          calls := world.calls + 1
          trace := world.trace ++ [.invoke world.calls op] }
      else world.set handle (thread.resume op next none)
  | .serving (.len next) =>
      if world.history.engine.isSome then
        { world.set handle { thread with phase := .counting next none, call := world.calls } with
          queue := world.queue ++ [{ handle, call := world.calls, req := .len }]
          calls := world.calls + 1 }
      else world.set handle { thread with phase := .serving (next none) }
  | _ => world

/-- What is recorded of a delivery: whether the op's record is complete, and so has its place in the
order of calls. -/
def record (world : World frontend) (engine : Engine KvStore) (faults : Faults) (ts : UInt64)
    (job : Job) (op : Op) : World frontend :=
  match (engine.applyDedup ts op).1 with
  | some output =>
      if engine.logs faults ts op then
        let thread := world.threads job.handle
        { world.set job.handle { thread with logged := thread.logged ++ [op] } with
          taken := world.taken ++ [{ call := job.call, input := op, output }] }
      else world
  | none => world

/-- The executor delivers the op of a job it has taken off the queue. -/
def deliver (world : World frontend) (engine : Engine KvStore) (faults : Faults) (ts : UInt64)
    (job : Job) (op : Op) : World frontend :=
  let after := { world.record engine faults ts job op with
    history := world.history.step (.deliver faults ts op) }
  let thread := after.threads job.handle
  match (engine.deliver faults world.history.disk ts op).1 with
  | .ok out => after.set job.handle { thread with phase := thread.phase.answer out }
  | .err => after.executorGone
  | .crash => after.crash

def execute (world : World frontend) (faults : Faults) (tick : UInt64) : World frontend :=
  match world.history.engine, world.queue with
  | some engine, job :: queue =>
      match job.req with
      | .apply op =>
          let clock := world.clock + 1
          World.deliver { world with clock, queue } engine faults (max clock tick) job op
      | .len =>
          let thread := world.threads job.handle
          { world.set job.handle
              { thread with phase := thread.phase.answerLen engine.state.map.size } with queue }
  | _, _ => world

/-- A waiting thread takes its answer; with the executor gone and no answer there is none to
come. -/
def receive (world : World frontend) (handle : Nat) : World frontend :=
  let thread := world.threads handle
  match thread.phase with
  | .applying op next (some out) =>
      { world.set handle (thread.resume op next (some out)) with
        trace := world.trace ++ [.respond thread.call out] }
  | .applying op next none =>
      if world.history.engine.isSome then world else world.set handle (thread.resume op next none)
  | .counting next (some count) =>
      world.set handle { thread with phase := .serving (next (some count)) }
  | .counting next none =>
      if world.history.engine.isSome then world
      else world.set handle { thread with phase := .serving (next none) }
  | _ => world

def reply (world : World frontend) (handle : Nat) : World frontend :=
  let thread := world.threads handle
  match thread.phase with
  | .serving (.ret turn) =>
      let served : Served frontend :=
        { client := thread.client, conn := thread.conn, request := thread.request
          earlier := thread.earlier, answers := thread.answers, logged := thread.logged
          output := turn.output }
      let phase := if turn.close then Phase.closed else Phase.idle
      let earlier := thread.earlier ++ thread.request.toList
      { world.set handle { thread with conn := turn.conn, phase, earlier } with
        replies := world.replies ++ [served] }
  | _ => world

def step (world : World frontend) : WorldEvent frontend → World frontend
  | .accept handle client =>
      match world.running, (world.threads handle).phase with
      | true, .closed =>
          { world.set handle { client, conn := frontend.init, phase := .idle } with
            nextId := world.nextId + 1 }
      | _, _ => world
  | .disconnect handle =>
      match (world.threads handle).phase with
      | .idle => world.set handle { world.threads handle with phase := .closed }
      | _ => world
  | .request handle request =>
      let thread := world.threads handle
      match thread.phase with
      | .idle =>
          world.set handle { thread with
            phase := .serving (frontend.serve thread.client thread.conn request)
            request := some request, answers := [], logged := [] }
      | _ => world
  | .send handle => world.send handle
  | .execute faults tick => world.execute faults tick
  | .receive handle => world.receive handle
  | .reply handle => world.reply handle
  | .crash => world.crash
  | .restart interval =>
      if world.running then world
      else
        let engine := startEngine world.history.disk interval
        { world with
          history := { world.history with engine := some engine }
          running := true
          clock := engine.lastTs + 1
          nextId := engine.maxClient + 1
          queue := [] }

end World

end OneBarrier
