import OneBarrier.Proof.Execution
import OneBarrier.Proof.Identity

/-!
# A process and its connections

What the results about single front-ends start from: connections have identities of their own, so
every op the executor takes is new to the engine; the executions account for the store and for every
answer; and every execution and every reply is part of serving a request, on the variables the
connection's earlier requests led to.
-/

namespace OneBarrier

open Wire Durable

variable {frontend : Frontend} {γ : Type} {view : frontend.Conn → γ}
  {line : γ → frontend.Request → γ}

/-- The op is the next one of its request, given the answers the request has had. -/
def Execution.Follows (view : frontend.Conn → γ) (line : γ → frontend.Request → γ)
    (execution : Execution frontend) : Prop :=
  view execution.serving.conn = execution.serving.earlier.foldl line (view frontend.init)
    ∧ ∃ request next, execution.serving.request = some request
      ∧ (frontend.serve execution.serving.client execution.serving.conn request).Reaches
        execution.answers (.apply execution.op next)

/-- The reply is what serving its request comes to, given the answers. -/
def Served.Follows (view : frontend.Conn → γ) (line : γ → frontend.Request → γ)
    (reply : Served frontend) : Prop :=
  view reply.conn = reply.earlier.foldl line (view frontend.init)
    ∧ ∃ request turn, reply.request = some request ∧ reply.output = turn.output
      ∧ (frontend.serve reply.client reply.conn request).Ends reply.answers turn

namespace World

variable {numbering : Numbering frontend} {handed : Nat} {initial : KvStore}
  {executions : List (Execution frontend)} {world : World frontend}

/-- All of it. -/
structure Serves (numbering : Numbering frontend) (view : frontend.Conn → γ)
    (line : γ → frontend.Request → γ) (handed : Nat) (initial : KvStore)
    (executions : List (Execution frontend)) (world : World frontend) : Prop where
  wired : world.Wired (fun _ => True)
  identities : world.Identities numbering handed
  executes : world.Executes initial executions
  follows : ∀ handle, (world.threads handle).Follows view line
  executed : ∀ execution ∈ executions, execution.Follows view line
  replied : ∀ reply ∈ world.replies, reply.Follows view line

/-- The thread an execution is for is waiting for it. -/
theorem follows_of_executes (hwired : world.Wired (fun _ => True))
    (hfollows : ∀ handle, (world.threads handle).Follows view line) {event : WorldEvent frontend}
    {execution : Execution frontend} (hexecution : execution ∈ world.executes event) :
    execution.Follows view line := by
  obtain ⟨engine, faults, tick, job, queue, op, -, -, hqueue, hreq, -, rfl, -⟩ :=
    executes_cases hexecution
  have hawaits := hwired.awaited job (by simp [hqueue])
  rw [hreq] at hawaits
  obtain ⟨next, hphase⟩ := hawaits
  have hconv : (world.threads job.handle).phase.conv = some (.apply op next) := by
    rw [hphase]
    rfl
  obtain ⟨request, hrequest, hreaches⟩ := (hfollows job.handle).reaches _ hconv
  exact ⟨(hfollows job.handle).conn_of_conv hconv, request, next, hrequest, hreaches⟩

/-- **The step lemma for a process.** -/
theorem Serves.step (hserves : world.Serves numbering view line handed initial executions)
    (hserve : ∀ client conn request answers turn,
      (frontend.serve client conn request).Ends answers turn →
        view turn.conn = line (view conn) request)
    {event : WorldEvent frontend} (hadmits : world.Admits numbering event)
    (hleft : world.SeqLeft numbering event)
    (hroom : handed + event.accepts.toNat < 2 ^ 32 - 1)
    (hclients : ∀ interval, event = .restart interval →
      world.history.disk.ClientsIn KvStore (fun client => client.toNat ≤ handed))
    (hrestart : ∀ interval, event = .restart interval → world.running = true
      ∨ (startEngine world.history.disk interval).state = stored initial executions
        ∧ ∀ execution ∈ executions, execution.op.seq
          ≤ (startEngine world.history.disk interval).highWater execution.op.client) :
    (world.step event).Serves numbering view line (handed + event.accepts.toNat) initial
      (executions ++ world.executes event) := by
  obtain ⟨hwired, hidentities, hexecutes, hfollows, hexecuted, hreplied⟩ := hserves
  refine ⟨hwired.step (attends_of_true world event),
    hidentities.step hwired hadmits hleft hroom hclients, ?_, ?_, ?_, ?_⟩
  · refine hexecutes.step hwired ?_ hrestart
    exact fun engine hengine job hjob op hop => hidentities.fresh hwired hengine hjob hop
  · exact threads_step (fun thread next hmove => hmove.follows hserve) hwired hfollows
      (attends_of_true world event)
  · intro execution hexecution
    rcases List.mem_append.mp hexecution with hold | hnew
    · exact hexecuted execution hold
    · exact follows_of_executes hwired hfollows hnew
  · refine served_step (fun thread turn hthread hphase => ?_) hfollows hreplied event
    have hconv : thread.phase.conv = some (.ret turn) := by
      rw [hphase]
      rfl
    obtain ⟨request, hrequest, hreaches⟩ := hthread.reaches _ hconv
    exact ⟨hthread.conn_of_conv hconv, request, turn, hrequest, rfl, hreaches.ends⟩

end World

/-! ### One process -/

def WorldEvent.restarts : WorldEvent frontend → Bool
  | .restart _ => true
  | _ => false

namespace World

variable {numbering : Numbering frontend} {world : World frontend}

variable (numbering) in
/-- The events of one process, whatever crashes or fails. -/
def Lives (world : World frontend) (event : WorldEvent frontend) : Prop :=
  world.Admits numbering event ∧ event.restarts = false

instance (event : WorldEvent frontend) : Decidable (world.Lives numbering event) :=
  inferInstanceAs (Decidable (_ ∧ _))

theorem serves_boot {disk : Disk} {interval : UInt64}
    (hroom : (startEngine disk interval).maxClient.toNat < 2 ^ 32 - 1) :
    (boot disk interval : World frontend).Serves numbering view line
      (startEngine disk interval).maxClient.toNat (startEngine disk interval).state [] := by
  have hnext : ((startEngine disk interval).maxClient + 1).toNat
      = (startEngine disk interval).maxClient.toNat + 1 := by
    rw [UInt32.toNat_add]
    exact Nat.mod_eq_of_lt (by change _ + 1 < _; omega)
  refine ⟨?_, ?_, ?_, ?_, nofun, nofun⟩
  · refine ⟨List.nodup_nil, by simp [boot], ?_, ?_, ?_⟩
    · intro _ handle op next hphase
      cases hphase
    · exact fun hnone => by cases hnone
    · exact fun hfalse => Bool.noConfusion hfalse
  · refine Identities.closed (fun _ => rfl) ?_ ?_
    · rw [boot]
      dsimp only
      rw [hnext]
    · rintro engine ⟨⟩ client hclient
      change client.toNat < ((startEngine disk interval).maxClient + 1).toNat
      rw [hnext]
      exact Nat.lt_succ_of_le (UInt32.le_iff_toNat_le.mp (Core.le_maxClient hclient))
  · refine ⟨?_, nofun, List.nodup_nil, fun _ hconv => absurd rfl hconv, nofun⟩
    rintro engine ⟨⟩
    rfl
  · exact fun handle => ⟨fun hopen => absurd rfl hopen, nofun⟩

/-- **The run lemma for one process**, on whatever directory it opens. -/
theorem serves_run
    (hserve : ∀ client conn request answers turn,
      (frontend.serve client conn request).Ends answers turn →
        view turn.conn = line (view conn) request)
    {disk : Disk} {interval : UInt64} {events : List (WorldEvent frontend)}
    (hlives : Run.Guarded step (fun world event => world.Lives numbering event
      ∧ world.SeqLeft numbering event) (boot disk interval) events)
    (hids : (startEngine disk interval).maxClient.toNat + events.countP WorldEvent.accepts
      < 2 ^ 32 - 1) :
    (Run.run step (boot disk interval : World frontend) events).Serves numbering view line
      ((startEngine disk interval).maxClient.toNat + events.countP WorldEvent.accepts)
      (startEngine disk interval).state
      (Run.trace step executes (boot disk interval : World frontend) events) := by
  induction events using List.reverseRecOn with
  | nil => exact serves_boot hids
  | append_singleton before event ih =>
      obtain ⟨hbefore, ⟨⟨hadmits, hstays⟩, hleft⟩, -⟩ := (Run.guarded_append _).mp hlives
      have hcount : (before ++ [event]).countP WorldEvent.accepts
          = before.countP WorldEvent.accepts + event.accepts.toNat := by
        rw [List.countP_append, List.countP_singleton]
        cases event.accepts <;> rfl
      have hnever : ∀ interval, event ≠ .restart interval := by
        rintro next rfl
        cases hstays
      rw [hcount, ← Nat.add_assoc] at hids ⊢
      rw [Run.run_append, Run.trace_append, Run.run_cons, Run.run_nil, Run.trace, Run.trace,
        List.append_nil]
      exact (ih hbefore (by omega)).step hserve hadmits hleft hids
        (fun next hrestart => absurd hrestart (hnever next))
        (fun next hrestart => absurd hrestart (hnever next))

/-! ### Answers of a live executor -/

/-- As long as the executor lives, it has answered every call that has returned. -/
structure Answers (world : World frontend) : Prop where
  threads : world.history.engine ≠ none → ∀ handle, ∀ answer ∈ (world.threads handle).answers,
    answer.2 ≠ none
  replies : world.history.engine ≠ none → ∀ reply ∈ world.replies, ∀ answer ∈ reply.answers,
    answer.2 ≠ none

theorem Answers.update (hanswers : world.Answers) {next : World frontend} {handle : Nat}
    {thread : Thread frontend}
    (hthreads : next.threads = Function.update world.threads handle thread)
    (hhistory : next.history = world.history) (hreplies : next.replies = world.replies)
    (hthread : world.history.engine ≠ none → ∀ answer ∈ thread.answers, answer.2 ≠ none) :
    next.Answers := by
  refine ⟨?_, ?_⟩
  · rw [hhistory, hthreads]
    intro hlive other
    by_cases hother : other = handle
    · rw [hother, Function.update_self]
      exact hthread hlive
    · rw [Function.update_of_ne hother]
      exact hanswers.threads hlive other
  · rw [hhistory, hreplies]
    exact hanswers.replies

theorem Answers.gone (hgone : world.history.engine = none) : world.Answers :=
  ⟨fun hlive => absurd hgone hlive, fun hlive => absurd hgone hlive⟩

theorem Answers.send (hanswers : world.Answers) (handle : Nat) : (world.send handle).Answers := by
  rw [World.send]
  dsimp only
  split
  · split
    · exact hanswers.update rfl rfl rfl fun hlive => hanswers.threads hlive handle
    · rename_i hgone
      exact Answers.gone (by simpa using hgone)
  · split
    · exact hanswers.update rfl rfl rfl fun hlive => hanswers.threads hlive handle
    · exact hanswers.update rfl rfl rfl fun hlive => hanswers.threads hlive handle
  · exact hanswers

theorem Answers.receive (hanswers : world.Answers) (handle : Nat) :
    (world.receive handle).Answers := by
  rw [World.receive]
  dsimp only
  split
  · refine hanswers.update rfl rfl rfl fun hlive answer hanswer => ?_
    rcases List.mem_append.mp hanswer with hold | hlast
    · exact hanswers.threads hlive handle answer hold
    · rw [List.mem_singleton.mp hlast]
      rintro ⟨⟩
  · split
    · exact hanswers
    · rename_i hgone
      exact Answers.gone (by simpa using hgone)
  · exact hanswers.update rfl rfl rfl fun hlive => hanswers.threads hlive handle
  · split
    · exact hanswers
    · exact hanswers.update rfl rfl rfl fun hlive => hanswers.threads hlive handle
  · exact hanswers

theorem Answers.reply (hanswers : world.Answers) (handle : Nat) : (world.reply handle).Answers := by
  rw [World.reply]
  dsimp only
  split
  · refine ⟨?_, ?_⟩
    · intro hlive other
      dsimp only [World.set]
      by_cases hother : other = handle
      · rw [hother, Function.update_self]
        exact hanswers.threads hlive handle
      · rw [Function.update_of_ne hother]
        exact hanswers.threads hlive other
    · intro hlive reply hreply
      rcases List.mem_append.mp hreply with hold | hlast
      · exact hanswers.replies hlive reply hold
      · rw [List.mem_singleton.mp hlast]
        exact hanswers.threads hlive handle
  · exact hanswers

theorem Answers.execute (hanswers : world.Answers) (faults : Faults) (tick : UInt64) :
    (world.execute faults tick).Answers := by
  rw [World.execute]
  cases hengine : world.history.engine with
  | none => exact hanswers
  | some engine =>
      have hlive : world.history.engine ≠ none := by simp [hengine]
      cases hqueue : world.queue with
      | nil => exact hanswers
      | cons job queue =>
          obtain ⟨handle, call, req⟩ := job
          cases req with
          | len => exact hanswers.update rfl rfl rfl fun _ => hanswers.threads hlive handle
          | apply op =>
              have hall := threads_deliver { world with clock := world.clock + 1, queue } engine faults
                (max (world.clock + 1) tick) ⟨handle, call, .apply op⟩ op
              have hreplies := replies_deliver { world with clock := world.clock + 1, queue } engine
                faults (max (world.clock + 1) tick) ⟨handle, call, .apply op⟩ op
              refine ⟨fun _ other => ?_, fun _ => ?_⟩
              · obtain ⟨phase, logged, hother, -⟩ := hall other
                dsimp only at hother ⊢
                rw [hother]
                exact hanswers.threads hlive other
              · dsimp only at hreplies ⊢
                rw [hreplies]
                exact hanswers.replies hlive

theorem Answers.step (hanswers : world.Answers) {event : WorldEvent frontend}
    (hstays : event.restarts = false) : (world.step event).Answers := by
  cases event with
  | accept handle client =>
      rw [World.step]
      split
      · exact hanswers.update rfl rfl rfl fun _ _ hmem => absurd hmem List.not_mem_nil
      · exact hanswers
  | disconnect handle =>
      rw [World.step]
      split
      · exact hanswers.update rfl rfl rfl fun hlive => hanswers.threads hlive handle
      · exact hanswers
  | request handle request =>
      rw [World.step]
      split
      · exact hanswers.update rfl rfl rfl fun _ _ hmem => absurd hmem List.not_mem_nil
      · exact hanswers
  | send handle => exact hanswers.send handle
  | execute faults tick => exact hanswers.execute faults tick
  | receive handle => exact hanswers.receive handle
  | reply handle => exact hanswers.reply handle
  | crash => exact Answers.gone rfl
  | restart interval => cases hstays

theorem answers_run {disk : Disk} {interval : UInt64} {events : List (WorldEvent frontend)}
    (hlives : Run.Guarded step (fun world event => world.Lives numbering event
      ∧ world.SeqLeft numbering event) (boot disk interval) events) :
    (Run.run step (boot disk interval : World frontend) events).Answers :=
  Run.invariant_run Answers (fun _ _ hevent hanswers => hanswers.step hevent.1.2) hlives
    ⟨fun _ _ => nofun, fun _ => nofun⟩

end World

end OneBarrier
