import OneBarrier.Proof.Crashes

/-!
# Every front-end is durably linearizable

The identities the server hands out make every op of every front-end new to the engine, so the calls
of all connections have an order that explains them, through any crashes between durable steps. A reply
is what serving its request comes to when each of its calls is answered at its place in that order.
-/

namespace OneBarrier

open Wire Utf8 Durable Linear

namespace World

variable {frontend : Frontend} {numbering : Numbering frontend} {world : World frontend}

theorem Identities.deliversFresh {handed : Nat} (hids : world.Identities numbering handed)
    {mayFail : Op → Prop} (hwired : world.Wired mayFail) (event : WorldEvent frontend) :
    world.DeliversFresh event := by
  cases event with
  | execute faults tick =>
      intro engine hengine record hrecord
      rw [pending, Option.mem_def.mp hengine] at hrecord
      cases hqueue : world.queue with
      | nil =>
          rw [hqueue] at hrecord
          cases hrecord
      | cons job queue =>
          have hjob : job ∈ world.queue := by simp [hqueue]
          rw [hqueue] at hrecord
          obtain ⟨handle, call, req⟩ := job
          cases req with
          | len => cases hrecord
          | apply op =>
              obtain rfl := Option.mem_some_iff.mp hrecord
              exact hids.fresh hwired hengine hjob rfl
  | _ => trivial

/-- **The run lemma for the order of calls**, whatever the front-end. -/
theorem orders_of_persists {interval : UInt64} {events : List (WorldEvent frontend)}
    (hpersists : Run.Guarded step (Persists numbering) (start interval) events)
    (hids : events.countP WorldEvent.accepts < 2 ^ 32 - 1) :
    (Run.run step (start interval : World frontend) events).Orders := by
  induction events using List.reverseRecOn with
  | nil => exact orders_start frontend interval
  | append_singleton before event ih =>
      obtain ⟨hbefore, -⟩ := (Run.guarded_append _).mp hpersists
      have hless : before.countP WorldEvent.accepts < 2 ^ 32 - 1 := by
        rw [List.countP_append] at hids
        omega
      have hruns := runs_atomic (Persists.atomic hbefore)
      obtain ⟨inFlight, hobserved⟩ := hruns.observed
      obtain ⟨hwired, hidentities, -⟩ := identities_run (Persists.assigns hbefore) hless
      rw [Run.run_append, Run.run_cons, Run.run_nil]
      exact (ih hbefore hless).step hwired hruns.coherent hobserved.state
        (hidentities.deliversFresh hwired event)

end World

/-- The reply is what serving its request comes to, every call of it answered at its place among the
executions. -/
structure Served.Accounted {frontend : Frontend} (executions : List (Execution frontend))
    (reply : Served frontend) : Prop where
  ends : ∃ request turn, reply.request = some request ∧ reply.output = turn.output
    ∧ (frontend.serve reply.client reply.conn request).Ends reply.answers turn
  explains : Explains ⟨∅⟩ executions reply.serving reply.answers
  answered : ∀ answer ∈ reply.answers, answer.2 ≠ none

/-- **Durable linearizability of every front-end.** Any of the front-ends, any connections and
interleaving, any crashes between durable steps and any restarts: the ops executed, in the order of
their records, linearize the calls; they are what a live engine holds and what a restart finds; every
reply is accounted for by them, and no two replies by the same one. -/
theorem frontends_durably_linearizable (protocol : Protocol) {interval : UInt64}
    {events : List (WorldEvent protocol.frontend)}
    (hpersists : Run.Guarded World.step (World.Persists protocol.numbering)
      (World.start interval) events)
    (hids : events.countP WorldEvent.accepts < 2 ^ 32 - 1) :
    let world := Run.run World.step (World.start interval : World protocol.frontend) events
    let executions := Run.trace World.step World.executes (World.start interval) events
    (∃ order, Linearizes KvStore.apply ⟨∅⟩ world.trace order
        ∧ order.map Taken.input = executions.map Execution.op)
      ∧ (∀ engine ∈ world.history.engine, engine.state = stored ⟨∅⟩ executions)
      ∧ (∀ next, (startEngine world.history.disk next).state = stored ⟨∅⟩ executions)
      ∧ (∀ reply ∈ world.replies, reply.Accounted executions)
      ∧ world.replies.Pairwise fun reply other =>
        (answeredKeys reply.answers).Disjoint (answeredKeys other.answers) := by
  intro world executions
  have horders := World.orders_of_persists hpersists hids
  have hcontinues : world.Continues protocol.numbering (fun _ => ()) (fun _ _ => ())
      (events.countP WorldEvent.accepts) executions :=
    World.continues_run (fun _ _ _ _ _ _ => rfl) hpersists hids
  have hruns := World.runs_atomic (World.Persists.atomic hpersists)
  refine ⟨⟨world.taken, horders.linear, horders.inputs.trans hcontinues.appended⟩,
    hcontinues.serves.executes.live, ?_, fun reply hreply => ?_, hcontinues.separates.replies⟩
  · exact fun next => (World.restart_finds hruns hcontinues.appended next).1
  · obtain ⟨-, hends⟩ := hcontinues.serves.replied reply hreply
    exact ⟨hends, hcontinues.serves.executes.replies reply hreply,
      hcontinues.attended.replies reply hreply⟩

/-- A counter is deleted between the two calls of an `incr`, the process dies with the second one's
record written, and a connection of the next process reads the counter. -/
def incrAndDelete : List (WorldEvent memcache) :=
  [.accept 0 1, .accept 1 2, .request 0 ⟨[asBytes "set", [110], [48], [48], [49]], [53]⟩, .send 0,
      .execute Faults.clean 0, .receive 0, .reply 0]
    ++ [.request 0 ⟨[asBytes "incr", [110], [49]], []⟩, .send 0, .execute Faults.clean 0, .receive 0,
      .request 1 ⟨[asBytes "delete", [110]], []⟩, .send 1, .execute Faults.clean 0, .receive 1, .reply 1]
    ++ [.send 0, .execute ⟨.crash 64, .none⟩ 0, .restart 8, .accept 0 3,
      .request 0 ⟨[asBytes "get", [110]], []⟩, .send 0, .execute Faults.clean 0, .receive 0, .reply 0]

theorem frontends_durably_linearizable_incrAndDelete :
    let world := Run.run World.step (World.start 8 : World memcache) incrAndDelete
    (world.replies.map fun reply => reply.output) = [asBytes "STORED\r\n", asBytes "DELETED\r\n",
        asBytes "VALUE n 0 1\r\n1\r\nEND\r\n"]
      ∧ ∃ order, Linearizes KvStore.apply ⟨∅⟩ world.trace order := by
  intro world
  have hpersists : Run.Guarded World.step (World.Persists Memcache.numbering) (World.start 8)
      incrAndDelete := by decide +kernel
  obtain ⟨⟨order, hlinear, -⟩, -⟩ :=
    frontends_durably_linearizable .memcache hpersists (by decide +kernel)
  exact ⟨by decide +kernel, order, hlinear⟩

end OneBarrier
