import OneBarrier.Server
import OneBarrier.Proof.ExactlyOnce

/-!
# The server runs the engine

Whatever the front-end and whatever the interleaving, the engine and its directory see a run of
deliveries, crashes and recoveries, and nothing else. What holds of every such run holds of every
server.
-/

namespace OneBarrier

open Wire Durable

theorem startEngine_eq_recover (disk : Disk) (interval : UInt64) :
    startEngine disk interval = Engine.recover disk interval := by
  rw [startEngine]
  split
  · rfl
  · rename_i hempty
    obtain ⟨oplog, snapshot⟩ := disk
    cases oplog with
    | some log => simp at hempty
    | none =>
        cases snapshot with
        | some bytes => simp at hempty
        | none =>
            have hops : (0 : UInt64) % max interval 1 = 0 := UInt64.zero_mod
            change Engine.create interval = Engine.mk Core.init (max interval 1)
              ((0 : UInt64) % max interval 1) _
            rw [hops]
            rfl

/-! ### Failed steps

A failed step ends the executor, so the directory is left as a crash at the same point leaves it.
-/

def AppendFault.asCrash : AppendFault → AppendFault
  | .failBefore => .crashBefore
  | .fail written => .crash written
  | fault => fault

def SnapshotFault.asCrash : SnapshotFault → SnapshotFault
  | .failBefore => .crashBefore
  | fault => fault

def Faults.asCrash (faults : Faults) : Faults :=
  { append := faults.append.asCrash, snapshot := faults.snapshot.asCrash }

def Event.asCrash : Event → Event
  | .deliver faults ts op => .deliver faults.asCrash ts op
  | .snapshot fault => .snapshot fault.asCrash
  | event => event

section AsCrash

variable {S : Type} [StateMachine S]

theorem Engine.logs_asCrash (engine : Engine S) (faults : Faults) (ts : UInt64) (op : Op) :
    engine.logs faults.asCrash ts op = engine.logs faults ts op := by
  obtain ⟨fault, snapshotFault⟩ := faults
  cases fault <;> rfl

/-- A delivery that does not fail is the same with crashes for failures, and one that fails leaves
the same directory. -/
theorem Engine.deliver_asCrash (engine : Engine S) (faults : Faults) (disk : Disk) (ts : UInt64)
    (op : Op) :
    (engine.deliver faults disk ts op).1 ≠ .err
        ∧ engine.deliver faults.asCrash disk ts op = engine.deliver faults disk ts op
      ∨ (engine.deliver faults disk ts op).1 = .err
        ∧ (engine.deliver faults.asCrash disk ts op).1 = .crash
        ∧ (engine.deliver faults.asCrash disk ts op).2.2 = (engine.deliver faults disk ts op).2.2 := by
  obtain ⟨fault, snapshotFault⟩ := faults
  by_cases hfresh : (dedup S).fresh engine.toCore (ts, op)
  · simp only [deliver_of_fresh hfresh]
    cases fault with
    | none =>
        simp only [Faults.asCrash, AppendFault.asCrash, append, Engine.snapshotIfDue]
        split
        · cases snapshotFault with
          | failBefore => exact .inr ⟨rfl, rfl, rfl⟩
          | none => exact .inl ⟨by simp [Engine.snapshot, writeSnapshot], rfl⟩
          | crashBefore => exact .inl ⟨by simp [Engine.snapshot, writeSnapshot], rfl⟩
          | crashRenamed => exact .inl ⟨by simp [Engine.snapshot, writeSnapshot], rfl⟩
          | keepLog => exact .inl ⟨by simp [Engine.snapshot, writeSnapshot], rfl⟩
          | crashAfter => exact .inl ⟨by simp [Engine.snapshot, writeSnapshot], rfl⟩
        · exact .inl ⟨by simp, rfl⟩
    | crashBefore => exact .inl ⟨by simp [append], rfl⟩
    | crash written => exact .inl ⟨by simp [append], rfl⟩
    | failBefore => exact .inr ⟨rfl, rfl, rfl⟩
    | fail written => exact .inr ⟨rfl, rfl, rfl⟩
  · left
    rw [deliver_of_not_fresh hfresh, deliver_of_not_fresh hfresh]
    exact ⟨by simp, rfl⟩

namespace History

variable {history : History S} {engine : Engine S} {faults : Faults} {ts : UInt64} {op : Op}

/-- No step looks at the record of what was in flight. -/
theorem step_inFlight (history : History S) (event : Event) (inFlight : List Record) :
    ∃ after, { history with inFlight }.step event = { history.step event with inFlight := after } := by
  obtain ⟨disk, engine, appended, acked, flying⟩ := history
  cases event with
  | deliver faults ts op =>
      cases engine with
      | none => exact ⟨inFlight, rfl⟩
      | some engine =>
          simp only [History.step, History.deliver]
          split <;> exact ⟨_, rfl⟩
  | snapshot fault =>
      cases engine with
      | none => exact ⟨inFlight, rfl⟩
      | some engine =>
          simp only [History.step, History.snapshot]
          split <;> exact ⟨_, rfl⟩
  | crash => exact ⟨inFlight, rfl⟩
  | recover interval => exact ⟨inFlight, rfl⟩

theorem step_asCrash_of_ok (hengine : history.engine = some engine) {out : Output}
    (hok : (engine.deliver faults history.disk ts op).1 = .ok out) :
    history.step (.deliver faults ts op) = history.step (.deliver faults.asCrash ts op) := by
  rcases engine.deliver_asCrash faults history.disk ts op with ⟨-, hsame⟩ | ⟨herr, -⟩
  · simp only [step, hengine, deliver, logged, Engine.logs_asCrash, hsame]
  · rw [hok] at herr
    cases herr

theorem step_asCrash_of_ended (hengine : history.engine = some engine)
    (hended : ∀ out, (engine.deliver faults history.disk ts op).1 ≠ .ok out) :
    ∃ inFlight, (history.step (.deliver faults ts op)).step .crash
      = { history.step (.deliver faults.asCrash ts op) with inFlight } := by
  have hcases := engine.deliver_asCrash faults history.disk ts op
  simp only [step, hengine, deliver, logged, Engine.logs_asCrash]
  generalize engine.deliver faults history.disk ts op = result at hended hcases
  generalize engine.deliver faults.asCrash history.disk ts op = crashed at hcases
  obtain ⟨outcome, after, disk⟩ := result
  obtain ⟨outcome', after', disk'⟩ := crashed
  rcases hcases with ⟨hfine, hsame⟩ | ⟨rfl, rfl, rfl⟩
  · obtain ⟨rfl, rfl, rfl⟩ : outcome = outcome' ∧ after = after' ∧ disk = disk' := by
      simpa [eq_comm] using hsame
    cases outcome with
    | ok out => exact absurd rfl (hended out)
    | err => exact absurd rfl hfine
    | crash => exact ⟨_, rfl⟩
  · exact ⟨_, rfl⟩

theorem Atomic.asCrash {event : Event} (hatomic : history.Atomic event) :
    history.Atomic event.asCrash := by
  cases event with
  | deliver faults ts op =>
      obtain ⟨fault, snapshotFault⟩ := faults
      obtain ⟨⟨hfault, hsnapshot⟩, hlimits, hrecord⟩ := hatomic
      refine ⟨⟨?_, ?_⟩, hlimits, hrecord⟩
      · cases fault <;> first | exact hfault | exact hfault.elim
      · cases snapshotFault <;> first | exact hsnapshot | exact absurd rfl hsnapshot
  | snapshot fault =>
      refine ⟨?_, trivial, trivial⟩
      have hsnapshot := hatomic.1
      cases fault <;> first | exact hsnapshot | exact absurd rfl hsnapshot
  | crash => exact hatomic
  | recover interval => exact hatomic

/-- Each step is one of the torn-write crash model, or fails where that crashes. -/
def Settles (history : History S) (event : Event) : Prop := history.Sound event.asCrash

instance (history : History S) (event : Event) : Decidable (history.Settles event) :=
  inferInstanceAs (Decidable (history.Sound event.asCrash))

end History

end AsCrash

namespace World

variable {frontend : Frontend} {world : World frontend}

/-- The op the executor delivers next, at the timestamp it gives it. -/
def pending (world : World frontend) (tick : UInt64) : Option Record :=
  match world.history.engine, world.queue with
  | some _, job :: _ =>
      match job.req with
      | .apply op => some (max (world.clock + 1) tick, op)
      | .len => none
  | _, _ => none

/-- Every op the executor delivers meets a condition on the engine's history. -/
def Delivers (condition : History KvStore → Event → Prop) (world : World frontend) :
    WorldEvent frontend → Prop
  | .execute faults tick => ∀ record ∈ world.pending tick,
      condition world.history (.deliver faults record.1 record.2)
  | _ => True

instance (condition : History KvStore → Event → Prop)
    [∀ history event, Decidable (condition history event)] (world : World frontend)
    (event : WorldEvent frontend) : Decidable (world.Delivers condition event) := by
  cases event <;> unfold Delivers <;> infer_instance

theorem Delivers.imp {condition weaker : History KvStore → Event → Prop}
    {event : WorldEvent frontend} (hevent : world.Delivers condition event)
    (himp : ∀ history event, condition history event → weaker history event) :
    world.Delivers weaker event := by
  cases event with
  | execute faults tick => exact fun record hrecord => himp _ _ (hevent record hrecord)
  | _ => trivial

@[simp]
theorem history_set (handle : Nat) (thread : Thread frontend) :
    (world.set handle thread).history = world.history := rfl

theorem history_send (handle : Nat) : (world.send handle).history = world.history := by
  rw [send]
  split
  · dsimp only
    split <;> rfl
  · dsimp only
    split <;> rfl
  · rfl

theorem history_receive (handle : Nat) : (world.receive handle).history = world.history := by
  rw [receive]
  split
  · rfl
  · split <;> rfl
  · rfl
  · split <;> rfl
  · rfl

theorem history_reply (handle : Nat) : (world.reply handle).history = world.history := by
  rw [reply]
  split <;> rfl

/-- The engine's part in an executor's step is one delivery. -/
theorem history_execute (faults : Faults) (tick : UInt64) :
    (world.execute faults tick).history = world.history ∧ world.pending tick = none
      ∨ ∃ record, world.pending tick = some record
        ∧ ∃ inFlight, (world.execute faults tick).history
          = { world.history.step (.deliver faults.asCrash record.1 record.2) with inFlight } := by
  rw [execute, pending]
  cases hengine : world.history.engine with
  | none => exact .inl ⟨rfl, rfl⟩
  | some engine =>
      cases hqueue : world.queue with
      | nil => exact .inl ⟨rfl, rfl⟩
      | cons job queue =>
          obtain ⟨handle, call, req⟩ := job
          cases req with
          | len => exact .inl ⟨rfl, rfl⟩
          | apply op =>
              refine .inr ⟨_, rfl, ?_⟩
              simp only [deliver]
              split
              · rename_i out hok
                exact ⟨_, History.step_asCrash_of_ok hengine hok⟩
              · rename_i herr
                exact History.step_asCrash_of_ended hengine (by simp [herr])
              · rename_i hcrash
                exact History.step_asCrash_of_ended hengine (by simp [hcrash])

/-- The history is one the engine can have, every step of it meeting the condition. -/
def Runs (condition : History KvStore → Event → Prop) (interval : UInt64)
    (world : World frontend) : Prop :=
  ∃ events inFlight,
    world.history = { Run.run History.step (History.start interval) events with inFlight }
      ∧ Run.Guarded History.step condition (History.start interval) events

section Runs

variable {condition : History KvStore → Event → Prop} {interval : UInt64}

theorem Runs.congr {next : World frontend} (hruns : world.Runs condition interval)
    (hnext : next.history = world.history) : next.Runs condition interval := by
  obtain ⟨events, inFlight, hhistory, hguarded⟩ := hruns
  exact ⟨events, inFlight, hnext.trans hhistory, hguarded⟩

theorem Runs.concat {next : World frontend} (hruns : world.Runs condition interval)
    (hcongr : ∀ history inFlight event,
      condition { history with inFlight } event → condition history event)
    {event : Event} (hevent : condition world.history event)
    (hnext : ∃ inFlight, next.history = { world.history.step event with inFlight }) :
    next.Runs condition interval := by
  obtain ⟨events, inFlight, hhistory, hguarded⟩ := hruns
  obtain ⟨after, hnext⟩ := hnext
  rw [hhistory] at hevent hnext
  obtain ⟨later, hstep⟩ := History.step_inFlight
    (Run.run History.step (History.start interval : History KvStore) events) event inFlight
  rw [hstep] at hnext
  refine ⟨events ++ [event], after, ?_, (Run.guarded_append _).mpr ⟨hguarded, ?_, trivial⟩⟩
  · rw [hnext, Run.run_append]
    rfl
  · exact hcongr _ _ _ hevent

theorem Runs.step (hcrash : ∀ history, condition history .crash)
    (hrecover : ∀ history next, condition history (.recover next))
    (hcongr : ∀ history inFlight event,
      condition { history with inFlight } event → condition history event)
    (hruns : world.Runs condition interval) {event : WorldEvent frontend}
    (hevent : world.Delivers (fun history event => condition history event.asCrash) event) :
    (world.step event).Runs condition interval := by
  cases event with
  | accept handle client =>
      refine hruns.congr ?_
      rw [World.step]
      split <;> rfl
  | disconnect handle =>
      refine hruns.congr ?_
      rw [World.step]
      split <;> rfl
  | request handle request =>
      refine hruns.congr ?_
      rw [World.step]
      split <;> rfl
  | send handle => exact hruns.congr (history_send handle)
  | receive handle => exact hruns.congr (history_receive handle)
  | reply handle => exact hruns.congr (history_reply handle)
  | crash => exact hruns.concat hcongr (hcrash _) ⟨_, rfl⟩
  | restart next =>
      rw [World.step]
      split
      · exact hruns.congr rfl
      · refine hruns.concat hcongr (hrecover _ next) ⟨world.history.inFlight, ?_⟩
        rw [startEngine_eq_recover]
        rfl
  | execute faults tick =>
      rcases history_execute faults tick with ⟨hsame, -⟩ | ⟨record, hpending, hdone⟩
      · exact hruns.congr hsame
      · exact hruns.concat hcongr (hevent record hpending) hdone

variable (frontend condition interval) in
theorem runs_start : (start interval : World frontend).Runs condition interval := by
  refine ⟨[], [], ?_, trivial⟩
  rw [start]
  rfl

end Runs

/-- A server whose deliveries stay within the formats' limits, and write nothing behind a partial
record, has a history the engine's results apply to, whichever of its steps crash or fail. -/
theorem runs_settles {interval : UInt64} {events : List (WorldEvent frontend)}
    (hsettles : Run.Guarded step (Delivers History.Settles) (start interval) events) :
    (Run.run step (start interval : World frontend) events).Runs History.Sound interval :=
  Run.invariant_run (Runs History.Sound interval)
    (fun _ _ hevent hruns => hruns.step (fun _ => ⟨trivial, trivial, trivial, trivial⟩)
      (fun _ _ => ⟨trivial, trivial, trivial, trivial⟩) (fun _ _ _ hsound => hsound) hevent)
    hsettles (runs_start frontend History.Sound interval)

/-- So does one whose deliveries keep to the record-atomic crash model. -/
theorem runs_atomic {interval : UInt64} {events : List (WorldEvent frontend)}
    (hatomic : Run.Guarded step (Delivers History.Atomic) (start interval) events) :
    (Run.run step (start interval : World frontend) events).Runs History.Sound interval := by
  have hruns := Run.invariant_run (Runs History.Atomic interval)
    (fun _ _ hevent hruns => hruns.step (fun _ => ⟨trivial, trivial, trivial⟩)
      (fun _ _ => ⟨trivial, trivial, trivial⟩) (fun _ _ _ hatomic => hatomic)
      (hevent.imp fun _ _ hatomic => hatomic.asCrash))
    hatomic (runs_start frontend History.Atomic interval)
  obtain ⟨events, inFlight, hhistory, hguarded⟩ := hruns
  exact ⟨events, inFlight, hhistory, History.sound_of_atomic hguarded⟩

theorem Runs.coherent {interval : UInt64} (hruns : world.Runs History.Sound interval) :
    world.history.Coherent := by
  obtain ⟨events, inFlight, hhistory, hsound⟩ := hruns
  obtain ⟨hrecovered, hlive, hfits, hbounded⟩ := History.coherent_run hsound
  rw [hhistory]
  exact ⟨hrecovered, hlive, hfits, hbounded⟩

theorem Runs.observed {interval : UInt64} (hruns : world.Runs History.Sound interval) :
    ∃ inFlight, { world.history with inFlight }.Observed := by
  obtain ⟨events, inFlight, hhistory, hsound⟩ := hruns
  refine ⟨(Run.run History.step (History.start interval : History KvStore) events).inFlight, ?_⟩
  rw [hhistory]
  exact (History.observed_run hsound).2

/-- A restart finds the store the running server has. -/
theorem Runs.restart_eq_live {interval : UInt64} (hruns : world.Runs History.Sound interval)
    {engine : Engine KvStore} (hengine : engine ∈ world.history.engine) (next : UInt64) :
    (startEngine world.history.disk next).state = engine.state := by
  have hcoherent := hruns.coherent
  rw [startEngine_eq_recover, recover_toCore, hcoherent.recovered, hcoherent.live engine hengine]

end World

end OneBarrier
