import OneBarrier.Proof.Refinement

/-!
# Calls on the engine refine the specification

A delivery or a snapshot is its stages in a row, and a crash inside it falls between two of them. A
run of calls therefore leaves what a run of stages leaves, and the specification describes it too.
-/

namespace OneBarrier

open Wire Durable

/-! ### The stages of a call -/

/-- What installing a snapshot goes through. -/
def SnapshotFault.stages : SnapshotFault → List Action
  | .none => [.rename, .remove false]
  | .crashBefore => [.crash]
  | .failBefore => []
  | .crashRenamed => [.rename, .crash]
  | .keepLog => [.rename, .remove true]
  | .crashAfter => [.rename, .remove false, .crash]

def Engine.stages (engine : Engine KvStore) (faults : Faults) (ts : UInt64) (op : Op) : List Action :=
  if op.seq ≤ engine.highWater op.client then [.apply ts op]
  else
    match faults.append with
    | .none => [.apply ts op, .append]
        ++ if engine.snapInterval ≤ engine.opsSinceSnap + 1 then faults.snapshot.stages else []
    | .crashBefore => [.apply ts op, .crash]
    | .crash _ => [.apply ts op, .append, .crash]
    | .failBefore | .fail _ => []

/-- The append is cut by a crash before it or behind its last byte, or not at all. -/
def AppendFault.BetweenStages (record : Bytes) : AppendFault → Prop
  | .none | .crashBefore => True
  | .crash written => record.length ≤ written
  | .failBefore | .fail _ => False

instance (record : Bytes) : (fault : AppendFault) → Decidable (fault.BetweenStages record)
  | .none | .crashBefore => inferInstanceAs (Decidable True)
  | .crash written => inferInstanceAs (Decidable (record.length ≤ written))
  | .failBefore | .fail _ => inferInstanceAs (Decidable False)

namespace History

variable {history : History KvStore} {engine : Engine KvStore} {key : String}

/-- The engine between two calls. -/
def process (history : History KvStore) : Process :=
  { disk := history.disk, engine := history.engine, stage := .idle, appended := history.appended }

def stages (history : History KvStore) : Event → List Action
  | .deliver faults ts op => (history.engine.map fun engine => engine.stages faults ts op).getD []
  | .snapshot fault => (history.engine.map fun _ => fault.stages).getD []
  | .crash => [.crash]
  | .recover interval => [.crash, .recover interval]

/-- Calls that increment the counter within the limits; no disk operation returns an error, and a crash
falls between two stages. -/
def Increments (key : String) (history : History KvStore) : Event → Prop
  | .deliver faults ts op =>
      faults.append.BetweenStages (encodeRecord ts op.encode) ∧ faults.snapshot ≠ .failBefore
        ∧ history.process.InScope key (.apply ts op) ∧ history.process.InLimits key (.apply ts op)
        ∧ ∀ engine ∈ history.engine, (engine.applyDedup ts op).2.Fits
  | .snapshot fault => fault ≠ .failBefore ∧ ∀ engine ∈ history.engine, engine.toCore.Fits
  | .crash | .recover _ => True

instance (key : String) (history : History KvStore) : (event : Event) →
    Decidable (history.Increments key event)
  | .deliver _ _ _ => inferInstanceAs (Decidable (_ ∧ _ ∧ _ ∧ _ ∧ ∀ engine ∈ history.engine, _))
  | .snapshot _ => inferInstanceAs (Decidable (_ ∧ ∀ engine ∈ history.engine, _))
  | .crash | .recover _ => isTrue trivial

/-! ### A call is its stages in a row -/

/-- A snapshot from where it is due, or called by itself. -/
theorem run_snapshot_stages {process : Process} (hengine : process.engine = some engine)
    (hstage : process.stage = .idle ∨ process.stage = .due) (happended : process.appended = history.appended)
    (hdisk : process.disk = history.disk) {fault : SnapshotFault} (hfault : fault ≠ .failBefore) :
    Run.run Process.step process fault.stages = (history.snapshot engine fault).process := by
  obtain ⟨disk, live, stage, appended⟩ := process
  obtain rfl : live = some engine := hengine
  obtain rfl : disk = history.disk := hdisk
  obtain rfl : appended = history.appended := happended
  obtain rfl | rfl : stage = .idle ∨ stage = .due := hstage
  all_goals
    cases fault with
    | failBefore => exact absurd rfl hfault
    | none | crashBefore | crashRenamed | keepLog | crashAfter => rfl

section Deliver

variable {ts : UInt64} {op : Op}

theorem run_apply (hengine : history.engine = some engine)
    (hfresh : (dedup KvStore).fresh engine.toCore (ts, op)) :
    history.process.step (.apply ts op)
      = { history.process with
          engine := some (engine.taken ts op), stage := .applied engine.toCore ts op } := by
  have hstep : history.process.step (.apply ts op) = history.process.apply engine ts op := by
    unfold Process.step process
    rw [hengine]
  rw [hstep, Process.apply, applyDedup_of_fresh hfresh]
  rfl

/-- What there is once the record is written. -/
theorem run_apply_append (hengine : history.engine = some engine)
    (hfresh : (dedup KvStore).fresh engine.toCore (ts, op)) :
    Run.run Process.step history.process [.apply ts op, .append]
      = { disk := (append .none history.disk ts op.encode).2
          engine := some { engine.taken ts op with opsSinceSnap := engine.opsSinceSnap + 1 }
          stage := if engine.snapInterval ≤ engine.opsSinceSnap + 1 then .due else .idle
          appended := history.appended ++ [(ts, op)] } := by
  rw [Run.run_cons, run_apply hengine hfresh]
  rfl

theorem run_suppressed (hengine : history.engine = some engine)
    (hcovered : ¬ (dedup KvStore).fresh engine.toCore (ts, op)) (faults : Faults) :
    history.process.step (.apply ts op) = (history.deliver engine faults ts op).process := by
  have hstep : history.process.step (.apply ts op) = history.process.apply engine ts op := by
    unfold Process.step process
    rw [hengine]
  rw [hstep, Process.apply, applyDedup_of_not_fresh hcovered, deliver, deliver_of_not_fresh hcovered,
    logged_of_not_fresh hcovered]
  rfl

/-- A delivery whose record is written goes on to its snapshot if that is due. -/
theorem deliver_of_appended (hfresh : (dedup KvStore).fresh engine.toCore (ts, op))
    {faults : Faults} (happend : faults.append = .none) :
    let taken := { engine.taken ts op with opsSinceSnap := engine.opsSinceSnap + 1 }
    let logged : History KvStore :=
      { history with
        disk := (append .none history.disk ts op.encode).2, engine := some taken
        appended := history.appended ++ [(ts, op)] }
    (history.deliver engine faults ts op).process
      = if engine.snapInterval ≤ engine.opsSinceSnap + 1
        then (logged.snapshot taken faults.snapshot).process else logged.process := by
  obtain ⟨fault, snapshotFault⟩ := faults
  obtain rfl : fault = .none := happend
  intro taken logged
  rw [deliver, deliver_of_fresh hfresh, logged_of_fresh hfresh]
  by_cases hdue : engine.snapInterval ≤ engine.opsSinceSnap + 1
  · have hsnapshot : (engine.taken ts op).snapInterval ≤ engine.opsSinceSnap + 1 := hdue
    simp only [append, Engine.snapshotIfDue, if_pos hdue, if_pos hsnapshot]
    cases snapshotFault <;> rfl
  · have hsnapshot : ¬ (engine.taken ts op).snapInterval ≤ engine.opsSinceSnap + 1 := hdue
    simp only [append, Engine.snapshotIfDue, if_neg hdue, if_neg hsnapshot]
    rfl

/-- A delivery that is not interrupted, or dies between two of its stages, is its stages in a row. -/
theorem run_deliver_stages (hengine : history.engine = some engine) {faults : Faults}
    (happend : faults.append.BetweenStages (encodeRecord ts op.encode))
    (hsnapshot : faults.snapshot ≠ .failBefore) :
    Run.run Process.step history.process (engine.stages faults ts op)
      = (history.deliver engine faults ts op).process := by
  by_cases hfresh : (dedup KvStore).fresh engine.toCore (ts, op)
  · have hnew : ¬ op.seq ≤ engine.highWater op.client := UInt64.not_le.mpr hfresh
    rw [Engine.stages, if_neg hnew]
    cases hfault : faults.append with
    | none =>
      dsimp only
      rw [Run.run_append, run_apply_append hengine hfresh, deliver_of_appended hfresh hfault]
      split
      · exact run_snapshot_stages rfl (.inr rfl) rfl rfl hsnapshot
      · rfl
    | crashBefore =>
      dsimp only
      rw [Run.run_cons, run_apply hengine hfresh, deliver, deliver_of_fresh hfresh,
        logged_of_fresh hfresh, hfault]
      rfl
    | crash written =>
      rw [hfault] at happend
      have hwhole : (encodeRecord ts op.encode).take written = encodeRecord ts op.encode :=
        List.take_of_length_le happend
      have hcompletes : (AppendFault.crash written).completes (encodeRecord ts op.encode) = true :=
        decide_eq_true happend
      change Run.run Process.step history.process ([.apply ts op, .append] ++ [.crash]) = _
      rw [Run.run_append, run_apply_append hengine hfresh, deliver, deliver_of_fresh hfresh,
        logged_of_fresh hfresh, hfault, if_pos hcompletes]
      simp only [append, hwhole]
      rfl
    | failBefore | fail written =>
      rw [hfault] at happend
      exact happend.elim
  · have hold : op.seq ≤ engine.highWater op.client := UInt64.not_lt.mp hfresh
    rw [Engine.stages, if_pos hold]
    exact run_suppressed hengine hfresh faults

end Deliver

/-- **Every call** is its stages in a row. -/
theorem run_stages {event : Event} (hevent : history.Increments key event) :
    Run.run Process.step history.process (history.stages event) = (history.step event).process := by
  cases event with
  | deliver faults ts op =>
    obtain ⟨happend, hsnapshot, -⟩ := hevent
    cases hengine : history.engine with
    | none =>
      simp only [stages, step, hengine]
      rfl
    | some engine =>
      simp only [stages, step, hengine]
      exact run_deliver_stages hengine happend hsnapshot
  | snapshot fault =>
    cases hengine : history.engine with
    | none =>
      simp only [stages, step, hengine]
      rfl
    | some engine =>
      simp only [stages, step, hengine]
      exact run_snapshot_stages hengine (.inl rfl) rfl rfl hevent.1
  | crash =>
    obtain ⟨disk, engine, appended, acked, inFlight⟩ := history
    cases engine <;> rfl
  | recover interval =>
    obtain ⟨disk, engine, appended, acked, inFlight⟩ := history
    cases engine <;> rfl

/-! ### The stages are within the limits -/

theorem guarded_snapshot_stages {process : Process}
    (hfits : ∀ engine ∈ process.engine, engine.toCore.Fits) (fault : SnapshotFault) :
    Run.Guarded Process.step (Process.Counting key) process fault.stages := by
  cases fault with
  | none | keepLog => exact ⟨⟨trivial, hfits⟩, ⟨trivial, trivial⟩, trivial⟩
  | crashBefore => exact ⟨⟨trivial, trivial⟩, trivial⟩
  | failBefore => trivial
  | crashRenamed => exact ⟨⟨trivial, hfits⟩, ⟨trivial, trivial⟩, trivial⟩
  | crashAfter => exact ⟨⟨trivial, hfits⟩, ⟨trivial, trivial⟩, ⟨trivial, trivial⟩, trivial⟩

theorem guarded_stages {event : Event} (hevent : history.Increments key event) :
    Run.Guarded Process.step (Process.Counting key) history.process (history.stages event) := by
  cases event with
  | deliver faults ts op =>
    obtain ⟨-, -, hscope, hlimits, hfits⟩ := hevent
    have happly : Process.Counting key history.process (.apply ts op) := ⟨hscope, hlimits⟩
    cases hengine : history.engine with
    | none =>
      simp only [stages, hengine]
      trivial
    | some engine =>
      simp only [stages, hengine, Option.map_some, Option.getD_some, Engine.stages]
      split
      · exact ⟨happly, trivial⟩
      · rename_i hnew
        have hfresh : (dedup KvStore).fresh engine.toCore (ts, op) := UInt64.not_le.mp hnew
        split
        · rw [Run.guarded_append, run_apply_append hengine hfresh]
          refine ⟨⟨happly, ⟨trivial, trivial⟩, trivial⟩, ?_⟩
          split
          · refine guarded_snapshot_stages (fun taken htaken => ?_) _
            obtain rfl := Option.some.inj htaken
            have hcore := hfits engine hengine
            rwa [applyDedup_of_fresh hfresh] at hcore
          · trivial
        · exact ⟨happly, ⟨trivial, trivial⟩, trivial⟩
        · exact ⟨happly, ⟨trivial, trivial⟩, ⟨trivial, trivial⟩, trivial⟩
        · trivial
        · trivial
  | snapshot fault =>
    cases hengine : history.engine with
    | none =>
      simp only [stages, hengine]
      trivial
    | some engine =>
      simp only [stages, hengine]
      exact guarded_snapshot_stages hevent.2 fault
  | crash => exact ⟨⟨trivial, trivial⟩, trivial⟩
  | recover interval => exact ⟨⟨trivial, trivial⟩, ⟨trivial, trivial⟩, trivial⟩

end History

/-- **Runs of calls refine the specification.** Deliveries and snapshots as the engine makes them, with
crashes between any two stages of them: what each call changes, the specification's steps change, and
its four properties hold after every call. -/
theorem calls_refine_spec {key : String} (hkey : KeyFits key) {interval : UInt64} {events : List Event}
    (hrun : Run.Guarded History.step (History.Increments key) (History.start interval) events) :
    let view := fun front =>
      (Run.run History.step (History.start interval) front).process.abstraction key
    (∀ front event back, events = front ++ event :: back →
        Relation.ReflTransGen Spec.Next (view front) (view (front ++ [event])))
      ∧ Spec.Reachable (view events) ∧ Spec.ExactlyOnce (view events) ∧ Spec.NoLostAck (view events)
      ∧ Spec.SnapshotConsistent (view events) ∧ Spec.AckedDurable (view events) := by
  have hstages : ∀ history event, History.Increments key history event →
      Run.Guarded Process.step (Process.Counting key) history.process (history.stages event)
        ∧ Run.run Process.step history.process (history.stages event)
          = (history.step event).process :=
    fun history event hevent => ⟨History.guarded_stages hevent, History.run_stages hevent⟩
  have hstart : ∃ cut kept, (History.start interval).process.Tracks key cut kept :=
    ⟨0, 0, Process.tracks_start key interval⟩
  have hexpands : ∀ front, Run.Guarded History.step (History.Increments key) (History.start interval) front →
      (∃ cut kept, (Run.run History.step (History.start interval) front).process.Tracks key cut kept)
        ∧ Relation.ReflTransGen Spec.Next ((History.start interval).process.abstraction key)
          ((Run.run History.step (History.start interval) front).process.abstraction key) := by
    intro front hfront
    obtain ⟨hguarded, hview⟩ := Run.run_expand History.process History.stages hstages hfront
    have htracks := Process.tracks_run hkey hguarded hstart
    rwa [hview] at htracks
  intro view
  refine ⟨fun front event back hevents => ?_, ?_⟩
  · rw [hevents, Run.guarded_append] at hrun
    obtain ⟨hguarded, hview⟩ := hstages _ event hrun.2.1
    have hreaches := (Process.tracks_run hkey hguarded (hexpands front hrun.1).1).2
    rw [hview] at hreaches
    have hnext : view (front ++ [event])
        = ((Run.run History.step (History.start interval) front).step event).process.abstraction key := by
      simp only [view, Run.run_append, Run.run_cons, Run.run_nil]
    rw [hnext]
    exact hreaches
  · have hinit : (History.start interval).process.abstraction key = Spec.init :=
      (Process.tracks_start key interval).abstraction_eq
    have hreachable : Spec.Reachable (view events) := by
      have hreaches := (hexpands events hrun).2
      rwa [hinit] at hreaches
    have hsafe := Spec.safe_of_reachable hreachable
    exact ⟨hreachable, hsafe.exactlyOnce, hsafe.noLostAck, hsafe.snapshotConsistent,
      hsafe.ackedDurable⟩

/-- Two clients, interval two: the second append is followed by a snapshot that dies behind its rename,
and after the recovery a re-delivery is a duplicate. -/
example :
    let incr := fun client seq => (⟨client, seq, .incr "n" 1⟩ : Op)
    Run.Guarded History.step (History.Increments "n") (History.start 2)
      [.deliver Faults.clean 5 (incr 1 1), .deliver ⟨.none, .crashRenamed⟩ 6 (incr 2 1), .recover 2,
        .deliver Faults.clean 7 (incr 2 1), .deliver Faults.clean 8 (incr 1 2)] := by
  decide +kernel

end OneBarrier
