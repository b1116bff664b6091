import OneBarrier.Proof.Server
import Mathlib.Logic.Relation

/-!
# Connection threads and their calls

A job in the queue belongs to the one call its thread waits for, so an answer always reaches the
call it is for. Seen from one thread, a step of the server is one of a few moves, and what every
move keeps holds of every thread in every run.
-/

namespace OneBarrier

open Wire Durable

variable {frontend : Frontend}

/-- The thread waits for the answer to this request. -/
def Phase.Awaits (phase : Phase frontend) : Req → Prop
  | .apply op => ∃ next, phase = .applying op next none
  | .len => ∃ next, phase = .counting next none

def Phase.isClosed : Phase frontend → Bool
  | .closed => true
  | _ => false

theorem Phase.eq_closed_of_isClosed {phase : Phase frontend} (hclosed : phase.isClosed = true) :
    phase = .closed := by
  cases phase with
  | closed => rfl
  | _ => cases hclosed

/-- The thread waits for some answer. -/
def Phase.isWaiting : Phase frontend → Bool
  | .applying _ _ none | .counting _ none => true
  | _ => false

theorem Phase.isWaiting_of_awaits {phase : Phase frontend} {req : Req}
    (hawaits : phase.Awaits req) : phase.isWaiting = true := by
  cases req with
  | apply op =>
      obtain ⟨next, rfl⟩ := hawaits
      rfl
  | len =>
      obtain ⟨next, rfl⟩ := hawaits
      rfl

/-- The op of the call the thread is about to make. -/
def Phase.sends : Phase frontend → Option Op
  | .serving (.apply op _) => some op
  | _ => none

def Req.op : Req → Option Op
  | .apply op => some op
  | .len => none

/-- What a step can do to a thread. `mayFail` is which ops may go unanswered, and `maySuppress`
which ops may be executed as duplicates. -/
inductive Thread.Move (mayFail maySuppress : Op → Prop) :
    Thread frontend → Thread frontend → Prop
  | accept (thread : Thread frontend) (client : UInt32) :
      Move mayFail maySuppress thread { client, conn := frontend.init, phase := .idle }
  | close (thread : Thread frontend) :
      Move mayFail maySuppress thread { thread with phase := .closed }
  | request {thread : Thread frontend} (request : frontend.Request) (hphase : thread.phase = .idle) :
      Move mayFail maySuppress thread { thread with
        phase := .serving (frontend.serve thread.client thread.conn request)
        request := some request, answers := [], logged := [] }
  | call {thread : Thread frontend} {op : Op} {next : Option Output → Conv (Turn frontend.Conn)}
      (call : Nat) (hphase : thread.phase = .serving (.apply op next)) :
      Move mayFail maySuppress thread { thread with phase := .applying op next none, call }
  | count {thread : Thread frontend} {next : Option Nat → Conv (Turn frontend.Conn)} (call : Nat)
      (hphase : thread.phase = .serving (.len next)) :
      Move mayFail maySuppress thread { thread with phase := .counting next none, call }
  | fail {thread : Thread frontend} {op : Op} {next : Option Output → Conv (Turn frontend.Conn)}
      (hphase : thread.phase = .serving (.apply op next)
        ∨ thread.phase = .applying op next none) (hfail : mayFail op ∨ op ∈ thread.logged) :
      Move mayFail maySuppress thread (thread.resume op next none)
  | log {thread : Thread frontend} {op : Op} {next : Option Output → Conv (Turn frontend.Conn)}
      (hphase : thread.phase = .applying op next none) :
      Move mayFail maySuppress thread { thread with logged := thread.logged ++ [op] }
  | answer {thread : Thread frontend} {op : Op} {next : Option Output → Conv (Turn frontend.Conn)}
      (out : Output) (hphase : thread.phase = .applying op next none) (hlogged : op ∈ thread.logged)
      (hout : out ≠ .suppressed) :
      Move mayFail maySuppress thread { thread with phase := .applying op next (some out) }
  | suppress {thread : Thread frontend} {op : Op} {next : Option Output → Conv (Turn frontend.Conn)}
      (hphase : thread.phase = .applying op next none) (hsuppress : maySuppress op) :
      Move mayFail maySuppress thread { thread with phase := .applying op next (some .suppressed) }
  | answerLen {thread : Thread frontend} {next : Option Nat → Conv (Turn frontend.Conn)}
      (count : Nat) (hphase : thread.phase = .counting next none) :
      Move mayFail maySuppress thread { thread with phase := .counting next (some count) }
  | receive {thread : Thread frontend} {op : Op} {next : Option Output → Conv (Turn frontend.Conn)}
      {out : Output} (hphase : thread.phase = .applying op next (some out)) :
      Move mayFail maySuppress thread (thread.resume op next (some out))
  | receiveLen {thread : Thread frontend} {next : Option Nat → Conv (Turn frontend.Conn)}
      (count : Option Nat) (hphase : thread.phase = .serving (.len next)
        ∨ ∃ answer, thread.phase = .counting next answer) :
      Move mayFail maySuppress thread { thread with phase := .serving (next count) }
  | reply {thread : Thread frontend} {turn : Turn frontend.Conn}
      (hphase : thread.phase = .serving (.ret turn)) :
      Move mayFail maySuppress thread { thread with
        conn := turn.conn, phase := if turn.close then .closed else .idle
        earlier := thread.earlier ++ thread.request.toList }

/-- Any number of moves. -/
abbrev Thread.Moves (mayFail maySuppress : Op → Prop) :
    Thread frontend → Thread frontend → Prop :=
  Relation.ReflTransGen (Thread.Move mayFail maySuppress)

namespace World

variable {world : World frontend} {mayFail maySuppress : Op → Prop}

/-- The queue holds exactly the calls the threads wait for. -/
structure Wired (mayFail : Op → Prop) (world : World frontend) : Prop where
  handles : (world.queue.map Job.handle).Nodup
  awaited : ∀ job ∈ world.queue, (world.threads job.handle).phase.Awaits job.req
  queued : world.history.engine ≠ none → ∀ handle op next,
    (world.threads handle).phase = .applying op next none →
      ∃ job ∈ world.queue, job.handle = handle ∧ job.req = .apply op
  stranded : world.history.engine = none → world.queue = [] ∧ ∀ handle op next,
    (world.threads handle).phase = .applying op next none →
      mayFail op ∨ op ∈ (world.threads handle).logged
  stopped : world.running = false →
    world.history.engine = none ∧ ∀ handle, (world.threads handle).phase = .closed

/-- The conditions on a run: an op is sent to a dead executor, or goes down with it unlogged, only if
it may go unanswered, and is executed as a duplicate only if it may be suppressed. -/
def Attends (mayFail maySuppress : Op → Prop) (world : World frontend) :
    WorldEvent frontend → Prop
  | .send handle => ∀ op ∈ (world.threads handle).phase.sends,
      world.history.engine = none → mayFail op
  | .execute faults tick => ∀ engine ∈ world.history.engine, ∀ record ∈ world.pending tick,
      (record.2.seq ≤ engine.highWater record.2.client → maySuppress record.2) ∧
        ((engine.deliver faults world.history.disk record.1 record.2).1 = .err →
          (mayFail record.2 ∨ engine.logs faults record.1 record.2 = true) ∧
            ∀ job ∈ world.queue.tail, ∀ op ∈ job.req.op, mayFail op)
  | _ => True

instance [DecidablePred mayFail] [DecidablePred maySuppress] :
    (event : WorldEvent frontend) → Decidable (world.Attends mayFail maySuppress event)
  | .send handle => inferInstanceAs (Decidable (∀ op ∈ (world.threads handle).phase.sends,
      world.history.engine = none → mayFail op))
  | .execute faults tick => inferInstanceAs (Decidable
      (∀ engine ∈ world.history.engine, ∀ record ∈ world.pending tick,
        (record.2.seq ≤ engine.highWater record.2.client → maySuppress record.2) ∧
          ((engine.deliver faults world.history.disk record.1 record.2).1 = .err →
            (mayFail record.2 ∨ engine.logs faults record.1 record.2 = true) ∧
              ∀ job ∈ world.queue.tail, ∀ op ∈ job.req.op, mayFail op)))
  | .accept .. | .disconnect _ | .request .. | .receive _ | .reply _ | .crash | .restart _ =>
      inferInstanceAs (Decidable True)

/-- With no condition on the ops there is none on the run. -/
theorem attends_of_true (world : World frontend) (event : WorldEvent frontend) :
    world.Attends (fun _ => True) (fun _ => True) event := by
  cases event with
  | send handle => exact fun _ _ _ => trivial
  | execute faults tick =>
      exact fun _ _ _ _ => ⟨fun _ => trivial, fun _ => ⟨.inl trivial, fun _ _ _ _ => trivial⟩⟩
  | _ => trivial

/-! ### One delivery -/

/-- The answer to a new op is the op's output. -/
theorem output_of_deliver_ok {engine : Engine KvStore} {faults : Faults} {disk : Disk} {ts : UInt64}
    {op : Op} {out : Output} (hfresh : (dedup KvStore).fresh engine.toCore (ts, op))
    (hok : (engine.deliver faults disk ts op).1 = .ok out) :
    faults.append = .none ∧ out = (dedup KvStore).output engine.toCore (ts, op) := by
  rw [deliver_of_fresh hfresh] at hok
  obtain ⟨fault, snapshotFault⟩ := faults
  cases fault with
  | none =>
      refine ⟨rfl, ?_⟩
      simp only [append, Engine.snapshotIfDue] at hok
      split at hok
      · split at hok
        · exact (Outcome.ok.inj hok).symm
        · cases hok
        · cases hok
      · exact (Outcome.ok.inj hok).symm
  | crashBefore => cases hok
  | failBefore => cases hok
  | crash written => cases hok
  | fail written => cases hok

/-- An answer means a complete record, or a duplicate. -/
theorem logs_of_deliver_ok {engine : Engine KvStore} {faults : Faults} {disk : Disk} {ts : UInt64}
    {op : Op} {out : Output} (hok : (engine.deliver faults disk ts op).1 = .ok out) :
    (out = .suppressed ∧ op.seq ≤ engine.highWater op.client)
      ∨ (out ≠ .suppressed ∧ engine.logs faults ts op = true) := by
  by_cases hfresh : (dedup KvStore).fresh engine.toCore (ts, op)
  · right
    obtain ⟨hfault, hout⟩ := output_of_deliver_ok hfresh hok
    refine ⟨?_, ?_⟩
    · rw [hout]
      exact LawfulStateMachine.apply_ne_suppressed _ _
    · simp [Engine.logs, applyDedup_of_fresh hfresh, AppendFault.completes, hfault]
  · left
    rw [deliver_of_not_fresh hfresh] at hok
    exact ⟨(Outcome.ok.inj hok).symm, UInt64.not_lt.mp hfresh⟩

section Deliver

variable {engine : Engine KvStore} {faults : Faults} {ts : UInt64} {op : Op}

variable (world) in
theorem record_of_logs (job : Job) (hlogs : engine.logs faults ts op = true) :
    ∃ output, (engine.applyDedup ts op).1 = some output
      ∧ world.record engine faults ts job op
        = { world.set job.handle { world.threads job.handle with
              logged := (world.threads job.handle).logged ++ [op] } with
            taken := world.taken ++ [{ call := job.call, input := op, output }] } := by
  cases happly : (engine.applyDedup ts op).1 with
  | none => simp [Engine.logs, happly] at hlogs
  | some output => exact ⟨output, rfl, by simp only [record, happly, if_pos hlogs]⟩

variable (world) in
theorem record_of_not_logs (job : Job) (hlogs : ¬ engine.logs faults ts op = true) :
    world.record engine faults ts job op = world := by
  rw [record]
  split
  · rw [if_neg hlogs]
  · rfl

variable (world engine faults ts op) in
/-- Recording a delivery touches a thread's list of logged ops at most. -/
theorem threads_record (job : Job) :
    (world.record engine faults ts job op).threads
      = Function.update world.threads job.handle { world.threads job.handle with
          logged := if engine.logs faults ts op then (world.threads job.handle).logged ++ [op]
            else (world.threads job.handle).logged } := by
  by_cases hlogs : engine.logs faults ts op = true
  · obtain ⟨output, -, hrecord⟩ := record_of_logs world job hlogs
    rw [hrecord, if_pos hlogs]
    rfl
  · rw [record_of_not_logs world job hlogs, if_neg hlogs]
    exact (Function.update_eq_self job.handle world.threads).symm

theorem moves_update {handle : Nat} {thread : Thread frontend}
    (hmoves : Thread.Moves mayFail maySuppress (world.threads handle) thread) (other : Nat) :
    Thread.Moves mayFail maySuppress (world.threads other)
      (Function.update world.threads handle thread other) := by
  by_cases hsame : other = handle
  · subst hsame
    rw [Function.update_self]
    exact hmoves
  · rw [Function.update_of_ne hsame]

variable (world) in
theorem moves_deliver {job : Job} (hawaits : (world.threads job.handle).phase.Awaits (.apply op))
    (hsuppress : op.seq ≤ engine.highWater op.client → maySuppress op) (other : Nat) :
    Thread.Moves mayFail maySuppress (world.threads other)
      ((world.deliver engine faults ts job op).threads other) := by
  obtain ⟨next, hphase⟩ := hawaits
  -- the thread once the delivery is recorded
  generalize hthread : { world.threads job.handle with
    logged := if engine.logs faults ts op then (world.threads job.handle).logged ++ [op]
      else (world.threads job.handle).logged } = thread
  have hrecorded : Thread.Moves mayFail maySuppress (world.threads job.handle) thread := by
    rw [← hthread]
    split
    · exact .single (.log hphase)
    · exact .refl
  have hwaits : thread.phase = .applying op next none := by rw [← hthread, hphase]
  have hthreads := threads_record world engine faults ts op job
  rw [hthread] at hthreads
  simp only [deliver]
  split
  · rename_i out hok
    simp only [set, hthreads, Function.update_self, Function.update_idem, hwaits, Phase.answer]
    refine moves_update (hrecorded.tail ?_) other
    rcases logs_of_deliver_ok hok with ⟨rfl, hcovered⟩ | ⟨hout, hlogs⟩
    · exact .suppress hwaits (hsuppress hcovered)
    · refine .answer out hwaits ?_ hout
      rw [← hthread, if_pos hlogs]
      exact List.mem_append_right _ (List.mem_singleton_self op)
  · simp only [executorGone, hthreads]
    exact moves_update hrecorded other
  · simp only [crash, executorGone, hthreads]
    exact (moves_update hrecorded other).tail (.close _)

end Deliver

/-! ### One step -/

theorem moves_send (handle : Nat)
    (hattends : world.Attends mayFail maySuppress (.send handle)) (other : Nat) :
    Thread.Moves mayFail maySuppress (world.threads other)
      ((world.send handle).threads other) := by
  rw [send]
  dsimp only
  split
  · rename_i op next hphase
    split
    · exact moves_update (.single (.call _ hphase)) other
    · rename_i hengine
      have hfail := hattends op (by rw [hphase]; rfl) (by simpa using hengine)
      exact moves_update (.single (.fail (.inl hphase) (.inl hfail))) other
  · rename_i next hphase
    split
    · exact moves_update (.single (.count _ hphase)) other
    · exact moves_update (.single (.receiveLen none (.inl hphase))) other
  · exact .refl

theorem moves_receive (hwired : world.Wired mayFail) (handle other : Nat) :
    Thread.Moves mayFail maySuppress (world.threads other)
      ((world.receive handle).threads other) := by
  rw [receive]
  dsimp only
  split
  · rename_i op next out hphase
    exact moves_update (.single (.receive hphase)) other
  · rename_i op next hphase
    split
    · exact .refl
    · rename_i hengine
      have hfail := (hwired.stranded (by simpa using hengine)).2 handle op next hphase
      exact moves_update (.single (.fail (.inr hphase) hfail)) other
  · rename_i next count hphase
    exact moves_update (.single (.receiveLen _ (.inr ⟨_, hphase⟩))) other
  · rename_i next hphase
    split
    · exact .refl
    · exact moves_update (.single (.receiveLen none (.inr ⟨_, hphase⟩))) other
  · exact .refl

theorem moves_execute (hwired : world.Wired mayFail) {faults : Faults} {tick : UInt64}
    (hattends : world.Attends mayFail maySuppress (.execute faults tick)) (other : Nat) :
    Thread.Moves mayFail maySuppress (world.threads other)
      ((world.execute faults tick).threads other) := by
  rw [execute]
  cases hengine : world.history.engine with
  | none => exact .refl
  | some engine =>
      cases hqueue : world.queue with
      | nil => exact .refl
      | cons job queue =>
          have hawaits := hwired.awaited job (by simp [hqueue])
          obtain ⟨handle, call, req⟩ := job
          cases req with
          | apply op =>
              have hpending : world.pending tick = some (max (world.clock + 1) tick, op) := by
                simp only [pending, hengine, hqueue]
              have hsuppress := (hattends engine hengine _ hpending).1
              exact moves_deliver { world with clock := world.clock + 1, queue } hawaits hsuppress
                other
          | len =>
              obtain ⟨next, hphase⟩ := hawaits
              simp only [set, hphase, Phase.answerLen]
              exact moves_update (.single (.answerLen _ hphase)) other

/-- **The step lemma for threads.** -/
theorem moves_step (hwired : world.Wired mayFail) {event : WorldEvent frontend}
    (hattends : world.Attends mayFail maySuppress event) (other : Nat) :
    Thread.Moves mayFail maySuppress (world.threads other)
      ((world.step event).threads other) := by
  cases event with
  | accept handle client =>
      rw [World.step]
      split
      · exact moves_update (.single (.accept _ client)) other
      · exact .refl
  | disconnect handle =>
      rw [World.step]
      split
      · exact moves_update (.single (.close _)) other
      · exact .refl
  | request handle request =>
      rw [World.step]
      split
      · rename_i hphase
        exact moves_update (.single (.request request hphase)) other
      · exact .refl
  | send handle => exact moves_send handle hattends other
  | execute faults tick => exact moves_execute hwired hattends other
  | receive handle => exact moves_receive hwired handle other
  | reply handle =>
      rw [World.step, reply]
      split
      · rename_i turn hphase
        exact moves_update (.single (.reply hphase)) other
      · exact .refl
  | crash => exact .single (.close _)
  | restart interval =>
      rw [World.step]
      split <;> exact .refl

theorem replies_record (engine : Engine KvStore) (faults : Faults) (ts : UInt64) (job : Job)
    (op : Op) : (world.record engine faults ts job op).replies = world.replies := by
  rw [record]
  split
  · split <;> rfl
  · rfl

theorem replies_execute (faults : Faults) (tick : UInt64) :
    (world.execute faults tick).replies = world.replies := by
  rw [execute]
  cases world.history.engine with
  | none => rfl
  | some engine =>
      cases hqueue : world.queue with
      | nil => rfl
      | cons job queue =>
          obtain ⟨handle, call, req⟩ := job
          cases req with
          | len => rfl
          | apply op =>
              simp only [deliver]
              split <;> exact replies_record _ _ _ _ _

/-- A step writes no reply but the one its thread has come to. -/
theorem replies_step (event : WorldEvent frontend) :
    (world.step event).replies = world.replies
      ∨ ∃ handle turn, event = .reply handle ∧ (world.threads handle).phase = .serving (.ret turn)
        ∧ (world.step event).replies = world.replies ++
          [{ client := (world.threads handle).client, conn := (world.threads handle).conn
             request := (world.threads handle).request
             earlier := (world.threads handle).earlier
             answers := (world.threads handle).answers
             logged := (world.threads handle).logged, output := turn.output }] := by
  cases event with
  | accept handle client =>
      rw [World.step]
      split <;> exact .inl rfl
  | disconnect handle =>
      rw [World.step]
      split <;> exact .inl rfl
  | request handle request =>
      rw [World.step]
      split <;> exact .inl rfl
  | send handle =>
      rw [World.step, send]
      split
      · dsimp only
        split <;> exact .inl rfl
      · dsimp only
        split <;> exact .inl rfl
      · exact .inl rfl
  | execute faults tick => exact .inl (replies_execute faults tick)
  | receive handle =>
      rw [World.step, receive]
      split
      · exact .inl rfl
      · split <;> exact .inl rfl
      · exact .inl rfl
      · split <;> exact .inl rfl
      · exact .inl rfl
  | reply handle =>
      rw [World.step, reply]
      split
      · rename_i turn hphase
        exact .inr ⟨handle, turn, rfl, hphase, rfl⟩
      · exact .inl rfl
  | crash => exact .inl rfl
  | restart interval =>
      rw [World.step]
      split <;> exact .inl rfl

/-! ### The queue and the threads -/

theorem Wired.congr {next : World frontend} (hwired : world.Wired mayFail)
    (hengine : next.history.engine = world.history.engine) (hqueue : next.queue = world.queue)
    (hthreads : next.threads = world.threads) (hrunning : next.running = world.running) :
    next.Wired mayFail := by
  obtain ⟨hhandles, hawaited, hqueued, hstranded, hstopped⟩ := hwired
  rw [← hengine, ← hthreads, ← hqueue] at hqueued hstranded
  rw [← hengine, ← hthreads, ← hrunning] at hstopped
  rw [← hqueue] at hhandles
  rw [← hqueue, ← hthreads] at hawaited
  exact ⟨hhandles, hawaited, hqueued, hstranded, hstopped⟩

/-- No job is for a thread that does not wait, or whose executor is gone. -/
theorem Wired.other (hwired : world.Wired mayFail) {handle : Nat}
    (hfree : world.history.engine = none ∨ (world.threads handle).phase.isWaiting = false) :
    ∀ job ∈ world.queue, job.handle ≠ handle := by
  rintro job hjob rfl
  rcases hfree with hengine | hfree
  · rw [(hwired.stranded hengine).1] at hjob
    exact List.not_mem_nil hjob
  · rw [Phase.isWaiting_of_awaits (hwired.awaited job hjob)] at hfree
    exact Bool.noConfusion hfree

/-- A thread that no job is for may change, as long as it does not wait for an answer afterwards. -/
theorem Wired.set (hwired : world.Wired mayFail) {handle : Nat} {thread : Thread frontend}
    (hfree : world.history.engine = none ∨ (world.threads handle).phase.isWaiting = false)
    (hthread : thread.phase.isWaiting = false)
    (hrunning : world.running = true) : (world.set handle thread).Wired mayFail := by
  have hother := hwired.other hfree
  have hpending : ∀ other op next,
      (Function.update world.threads handle thread other).phase = .applying op next none →
        Function.update world.threads handle thread other = world.threads other := by
    intro other op next hphase
    by_cases hsame : other = handle
    · rw [hsame, Function.update_self] at hphase
      rw [hphase] at hthread
      exact Bool.noConfusion hthread
    · exact Function.update_of_ne hsame _ _
  refine ⟨hwired.handles, ?_, ?_, ?_, ?_⟩
  · intro job hjob
    change (Function.update world.threads handle thread job.handle).phase.Awaits _
    rw [Function.update_of_ne (hother job hjob)]
    exact hwired.awaited job hjob
  · intro hengine other op next hphase
    have hsame := hpending other op next hphase
    exact hwired.queued hengine other op next (hsame ▸ hphase)
  · intro hengine
    obtain ⟨hqueue, hstranded⟩ := hwired.stranded hengine
    refine ⟨hqueue, fun other op next hphase => ?_⟩
    have hsame := hpending other op next hphase
    change mayFail op ∨ op ∈ (Function.update world.threads handle thread other).logged
    rw [hsame]
    exact hstranded other op next (hsame ▸ hphase)
  · intro hstopped
    rw [World.set, hrunning] at hstopped
    exact Bool.noConfusion hstopped

theorem Wired.running (hwired : world.Wired mayFail) {handle : Nat}
    (hphase : (world.threads handle).phase.isClosed = false) : world.running = true := by
  cases hrunning : world.running with
  | true => rfl
  | false =>
      rw [(hwired.stopped hrunning).2 handle] at hphase
      exact Bool.noConfusion hphase

/-- A call joins the queue. -/
theorem Wired.call (hwired : world.Wired mayFail) {next : World frontend} {job : Job}
    {thread : Thread frontend} (hserving : (world.threads job.handle).phase.isWaiting = false)
    (hlive : world.history.engine ≠ none)
    (hengine : next.history.engine = world.history.engine)
    (hqueue : next.queue = world.queue ++ [job])
    (hthreads : next.threads = Function.update world.threads job.handle thread)
    (hawaits : thread.phase.Awaits job.req) (hrunning : next.running = true) :
    next.Wired mayFail := by
  have hother := hwired.other (.inr hserving)
  refine ⟨?_, ?_, ?_, ?_, ?_⟩
  · rw [hqueue, List.map_append]
    refine List.nodup_append.mpr ⟨hwired.handles, by simp, ?_⟩
    intro handle hhandle last hlast hsame
    obtain ⟨other, hmem, rfl⟩ := List.mem_map.mp hhandle
    exact hother other hmem (hsame.trans (by simpa using hlast))
  · intro other hmem
    rw [hqueue] at hmem
    rw [hthreads]
    rcases List.mem_append.mp hmem with hold | hnew
    · rw [Function.update_of_ne (hother other hold)]
      exact hwired.awaited other hold
    · rw [List.mem_singleton.mp hnew, Function.update_self]
      exact hawaits
  · intro _ handle op after hphase
    rw [hthreads] at hphase
    rw [hqueue]
    by_cases hsame : handle = job.handle
    · rw [hsame, Function.update_self] at hphase
      refine ⟨job, by simp, hsame.symm, ?_⟩
      cases hreq : job.req with
      | apply other =>
          rw [hreq, hphase] at hawaits
          obtain ⟨_, hequal⟩ := hawaits
          rw [(Phase.applying.inj hequal).1]
      | len =>
          rw [hreq, hphase] at hawaits
          obtain ⟨_, hequal⟩ := hawaits
          cases hequal
    · rw [Function.update_of_ne hsame] at hphase
      obtain ⟨other, hmem, hfields⟩ := hwired.queued hlive handle op after hphase
      exact ⟨other, List.mem_append_left _ hmem, hfields⟩
  · intro hnone
    exact absurd (hengine.symm.trans hnone) hlive
  · intro hstopped
    rw [hrunning] at hstopped
    exact Bool.noConfusion hstopped

/-- The head of the queue is answered. -/
theorem Wired.answer (hwired : world.Wired mayFail) {next : World frontend} {job : Job}
    {queue : List Job} (hbefore : world.history.engine ≠ none) (hhead : world.queue = job :: queue)
    (hlive : next.history.engine ≠ none) (hqueue : next.queue = queue)
    (hthread : (next.threads job.handle).phase.isWaiting = false)
    (hphases : ∀ other ≠ job.handle, (next.threads other).phase = (world.threads other).phase)
    (hrunning : next.running = true) : next.Wired mayFail := by
  have hhandles := hwired.handles
  rw [hhead, List.map_cons, List.nodup_cons] at hhandles
  have hother : ∀ other ∈ queue, other.handle ≠ job.handle := by
    intro other hmem hsame
    exact hhandles.1 (hsame ▸ List.mem_map_of_mem hmem)
  refine ⟨by rw [hqueue]; exact hhandles.2, ?_, ?_, fun hnone => absurd hnone hlive, ?_⟩
  · intro other hmem
    rw [hqueue] at hmem
    rw [hphases _ (hother other hmem)]
    exact hwired.awaited other (by rw [hhead]; exact List.mem_cons_of_mem _ hmem)
  · intro _ handle op after hphase
    by_cases hsame : handle = job.handle
    · rw [hsame] at hphase
      rw [hphase] at hthread
      exact Bool.noConfusion hthread
    · rw [hphases handle hsame] at hphase
      obtain ⟨other, hmem, hhandle, hreq⟩ := hwired.queued hbefore handle op after hphase
      rw [hhead] at hmem
      rcases List.mem_cons.mp hmem with rfl | htail
      · exact absurd hhandle.symm hsame
      · exact ⟨other, by rw [hqueue]; exact htail, hhandle, hreq⟩
  · intro hstopped
    rw [hrunning] at hstopped
    exact Bool.noConfusion hstopped

theorem wired_crash : world.crash.Wired mayFail := by
  refine ⟨List.nodup_nil, by simp [crash, executorGone], fun hengine => absurd rfl hengine, ?_, ?_⟩
  · exact fun _ => ⟨rfl, fun _ _ _ hphase => by cases hphase⟩
  · exact fun _ => ⟨rfl, fun _ => rfl⟩

theorem Wired.send (hwired : world.Wired mayFail) (handle : Nat) :
    (world.send handle).Wired mayFail := by
  rw [World.send]
  dsimp only
  split
  · rename_i op next hphase
    have hrunning := hwired.running (by rw [hphase]; rfl)
    have hfree : (world.threads handle).phase.isWaiting = false := by rw [hphase]; rfl
    split
    · rename_i hlive
      exact hwired.call hfree (Option.isSome_iff_ne_none.mp hlive) rfl rfl rfl ⟨next, rfl⟩ hrunning
    · exact hwired.set (.inr hfree) rfl hrunning
  · rename_i next hphase
    have hrunning := hwired.running (by rw [hphase]; rfl)
    have hfree : (world.threads handle).phase.isWaiting = false := by rw [hphase]; rfl
    split
    · rename_i hlive
      exact hwired.call hfree (Option.isSome_iff_ne_none.mp hlive) rfl rfl rfl ⟨next, rfl⟩ hrunning
    · exact hwired.set (.inr hfree) rfl hrunning
  · exact hwired

theorem Wired.receive (hwired : world.Wired mayFail) (handle : Nat) :
    (world.receive handle).Wired mayFail := by
  rw [World.receive]
  dsimp only
  split
  · rename_i op next out hphase
    have hrunning := hwired.running (by rw [hphase]; rfl)
    exact (hwired.set (.inr (by rw [hphase]; rfl)) rfl hrunning).congr rfl rfl rfl rfl
  · rename_i op next hphase
    have hrunning := hwired.running (by rw [hphase]; rfl)
    split
    · exact hwired
    · rename_i hengine
      exact hwired.set (.inl (by simpa using hengine)) rfl hrunning
  · rename_i next count hphase
    have hrunning := hwired.running (by rw [hphase]; rfl)
    exact hwired.set (.inr (by rw [hphase]; rfl)) rfl hrunning
  · rename_i next hphase
    have hrunning := hwired.running (by rw [hphase]; rfl)
    split
    · exact hwired
    · rename_i hengine
      exact hwired.set (.inl (by simpa using hengine)) rfl hrunning
  · exact hwired

theorem engine_step_deliver {history : History KvStore} {engine : Engine KvStore}
    {faults : Faults} {ts : UInt64} {op : Op} {out : Output}
    (hengine : history.engine = some engine)
    (hok : (engine.deliver faults history.disk ts op).1 = .ok out) :
    (history.step (.deliver faults ts op)).engine ≠ none := by
  simp only [History.step, hengine, History.deliver]
  generalize engine.deliver faults history.disk ts op = result at hok
  obtain ⟨outcome, after, disk⟩ := result
  obtain rfl : outcome = .ok out := hok
  simp

variable (world) in
/-- Recording a delivery leaves alone what the queue and the threads are wired by. -/
theorem record_frame (engine : Engine KvStore) (faults : Faults) (ts : UInt64) (job : Job)
    (op : Op) :
    (world.record engine faults ts job op).queue = world.queue
      ∧ (world.record engine faults ts job op).running = world.running
      ∧ ∀ other, ((world.record engine faults ts job op).threads other).phase
        = (world.threads other).phase := by
  refine ⟨?_, ?_, ?_⟩
  · rw [record]
    split
    · split <;> rfl
    · rfl
  · rw [record]
    split
    · split <;> rfl
    · rfl
  · intro other
    rw [threads_record]
    by_cases hsame : other = job.handle
    · rw [hsame, Function.update_self]
    · rw [Function.update_of_ne hsame]

theorem Wired.deliver (hwired : world.Wired mayFail) {engine : Engine KvStore} {faults : Faults}
    {ts : UInt64} {job : Job} {queue : List Job} {op : Op}
    (hengine : world.history.engine = some engine) (hhead : world.queue = job :: queue)
    (hreq : job.req = .apply op) (clock : UInt64)
    (herr : (engine.deliver faults world.history.disk ts op).1 = .err →
      (mayFail op ∨ engine.logs faults ts op = true) ∧
        ∀ job ∈ world.queue.tail, ∀ op ∈ job.req.op, mayFail op) :
    (World.deliver { world with clock, queue } engine faults ts job op).Wired mayFail := by
  have hlive : world.history.engine ≠ none := by simp [hengine]
  have hawaits := hwired.awaited job (by simp [hhead])
  rw [hreq] at hawaits
  obtain ⟨next, hphase⟩ := hawaits
  have hrunning := hwired.running (by rw [hphase]; rfl)
  obtain ⟨hqueue, hstill, hphases⟩ :=
    record_frame { world with clock, queue } engine faults ts job op
  have hthreads := threads_record { world with clock, queue } engine faults ts op job
  simp only [World.deliver]
  generalize World.record { world with clock, queue } engine faults ts job op = recorded
    at hqueue hstill hphases hthreads
  split
  · rename_i out hok
    have hawaiting : (recorded.threads job.handle).phase = .applying op next none := by
      rw [hphases, hphase]
    refine hwired.answer hlive hhead (engine_step_deliver hengine hok) hqueue ?_ ?_
      (hstill.trans hrunning)
    · simp only [World.set, Function.update_self, hawaiting, Phase.answer]
      rfl
    · intro other hother
      simp only [World.set, Function.update_of_ne hother, hphases]
  · rename_i hfailed
    refine ⟨List.nodup_nil, by simp [executorGone], fun hsome => absurd rfl hsome, ?_, ?_⟩
    · refine fun _ => ⟨rfl, fun handle other after hother => ?_⟩
      have hwaiting : (world.threads handle).phase = .applying other after none :=
        (hphases handle).symm.trans hother
      obtain ⟨dropped, hmem, hhandle, hdropped⟩ := hwired.queued hlive handle other after hwaiting
      obtain ⟨hfirst, hrest⟩ := herr hfailed
      rw [hhead] at hmem hrest
      rcases List.mem_cons.mp hmem with rfl | htail
      · obtain rfl : op = other := Req.apply.inj (hreq.symm.trans hdropped)
        refine hfirst.imp_right fun hlogs => ?_
        simp only [executorGone, hthreads, hhandle, Function.update_self, if_pos hlogs]
        exact List.mem_append_right _ (List.mem_singleton_self op)
      · exact .inl (hrest dropped htail other (by rw [hdropped]; rfl))
    · intro hstopped
      rw [executorGone, hstill, hrunning] at hstopped
      exact Bool.noConfusion hstopped
  · exact wired_crash

theorem Wired.execute (hwired : world.Wired mayFail) {faults : Faults} {tick : UInt64}
    (hattends : world.Attends mayFail maySuppress (.execute faults tick)) :
    (world.execute faults tick).Wired mayFail := by
  rw [World.execute]
  cases hengine : world.history.engine with
  | none => exact hwired
  | some engine =>
      have hlive : world.history.engine ≠ none := by simp [hengine]
      cases hqueue : world.queue with
      | nil => exact hwired
      | cons job queue =>
          obtain ⟨handle, call, req⟩ := job
          cases req with
          | apply op =>
              have hpending : world.pending tick = some (max (world.clock + 1) tick, op) := by
                simp only [pending, hengine, hqueue]
              exact hwired.deliver hengine hqueue rfl _ (hattends engine hengine _ hpending).2
          | len =>
              obtain ⟨next, hphase⟩ := hwired.awaited _ (by rw [hqueue]; exact List.mem_cons_self)
              refine hwired.answer hlive hqueue hlive rfl ?_ ?_
                (hwired.running (by rw [hphase]; rfl))
              · simp only [World.set, Function.update_self, hphase, Phase.answerLen]
                rfl
              · intro other hother
                simp only [World.set, Function.update_of_ne hother]

theorem Wired.step (hwired : world.Wired mayFail) {event : WorldEvent frontend}
    (hattends : world.Attends mayFail maySuppress event) : (world.step event).Wired mayFail := by
  cases event with
  | accept handle client =>
      rw [World.step]
      split
      · rename_i hrunning hphase
        exact (hwired.set (.inr (by rw [hphase]; rfl)) rfl hrunning).congr rfl rfl rfl rfl
      · exact hwired
  | disconnect handle =>
      rw [World.step]
      split
      · rename_i hphase
        exact hwired.set (.inr (by rw [hphase]; rfl)) rfl (hwired.running (by rw [hphase]; rfl))
      · exact hwired
  | request handle request =>
      rw [World.step]
      split
      · rename_i hphase
        exact hwired.set (.inr (by rw [hphase]; rfl)) rfl (hwired.running (by rw [hphase]; rfl))
      · exact hwired
  | send handle => exact hwired.send handle
  | execute faults tick => exact hwired.execute hattends
  | receive handle => exact hwired.receive handle
  | reply handle =>
      rw [World.step, World.reply]
      split
      · rename_i turn hphase
        have hrunning := hwired.running (by rw [hphase]; rfl)
        refine (hwired.set (.inr (by rw [hphase]; rfl)) ?_ hrunning).congr rfl rfl rfl rfl
        cases turn.close <;> rfl
      · exact hwired
  | crash => exact wired_crash
  | restart interval =>
      rw [World.step]
      split
      · exact hwired
      · rename_i hstopped
        obtain ⟨hengine, hclosed⟩ := hwired.stopped (by simpa using hstopped)
        refine ⟨List.nodup_nil, by simp, ?_, ?_, ?_⟩
        · intro _ handle op next hphase
          rw [hclosed handle] at hphase
          cases hphase
        · exact fun hnone => by cases hnone
        · exact fun hfalse => Bool.noConfusion hfalse

variable (frontend) in
theorem wired_start (interval : UInt64) : (start interval : World frontend).Wired mayFail := by
  refine ⟨List.nodup_nil, by simp [start], ?_, ?_, ?_⟩
  · intro _ handle op next hphase
    cases hphase
  · exact fun hnone => by cases hnone
  · exact fun hfalse => Bool.noConfusion hfalse

section Invariant

variable {Good : Thread frontend → Prop} {GoodReply : Served frontend → Prop}

/-- **The step lemma for threads.** -/
theorem threads_step
    (hmove : ∀ thread next, Thread.Move mayFail maySuppress thread next → Good thread → Good next)
    (hwired : world.Wired mayFail) (hgood : ∀ handle, Good (world.threads handle))
    {event : WorldEvent frontend} (hevent : world.Attends mayFail maySuppress event)
    (handle : Nat) : Good ((world.step event).threads handle) := by
  have hmoves := moves_step hwired hevent handle
  generalize (world.step event).threads handle = after at hmoves
  induction hmoves with
  | refl => exact hgood handle
  | tail _ hlast ih => exact hmove _ _ hlast ih

/-- What holds of a thread that has come to a reply holds of the reply. -/
theorem served_step
    (hreply : ∀ (thread : Thread frontend) turn, Good thread →
      thread.phase = .serving (.ret turn) →
        GoodReply { client := thread.client, conn := thread.conn, request := thread.request
                    earlier := thread.earlier, answers := thread.answers, logged := thread.logged
                    output := turn.output })
    (hgood : ∀ handle, Good (world.threads handle))
    (hreplies : ∀ served ∈ world.replies, GoodReply served) (event : WorldEvent frontend) :
    ∀ served ∈ (world.step event).replies, GoodReply served := by
  rcases replies_step event with hsame | ⟨handle, turn, -, hphase, hnew⟩
  · rw [hsame]
    exact hreplies
  · rw [hnew]
    intro served hserved
    rcases List.mem_append.mp hserved with hold | hlast
    · exact hreplies served hold
    · rw [List.mem_singleton.mp hlast]
      exact hreply _ turn (hgood handle) hphase

/-- **The run lemma for threads.** What every move of a thread keeps holds of every thread, and what
it says of a thread that has come to a reply holds of every reply. -/
theorem invariant_threads
    (hinit : ∀ thread : Thread frontend, thread.phase = .closed → Good thread)
    (hmove : ∀ thread next, Thread.Move mayFail maySuppress thread next → Good thread → Good next)
    (hreply : ∀ (thread : Thread frontend) turn, Good thread →
      thread.phase = .serving (.ret turn) →
        GoodReply { client := thread.client, conn := thread.conn, request := thread.request
                    earlier := thread.earlier, answers := thread.answers, logged := thread.logged
                    output := turn.output })
    {interval : UInt64} {events : List (WorldEvent frontend)}
    (hattends : Run.Guarded step (Attends mayFail maySuppress) (start interval) events) :
    ∀ served ∈ (Run.run step (start interval : World frontend) events).replies,
      GoodReply served := by
  have hinv := Run.invariant_run
    (fun world : World frontend => world.Wired mayFail ∧ (∀ handle, Good (world.threads handle))
      ∧ ∀ served ∈ world.replies, GoodReply served) ?_ hattends
    ⟨wired_start frontend interval, fun handle => hinit _ rfl, by simp [start]⟩
  · exact hinv.2.2
  · rintro world event hevent ⟨hwired, hgood, hreplies⟩
    exact ⟨hwired.step hevent, threads_step hmove hwired hgood hevent,
      served_step hreply hgood hreplies event⟩

end Invariant

end World

end OneBarrier
