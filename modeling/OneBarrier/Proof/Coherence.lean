import OneBarrier.History
import OneBarrier.Proof.Recovery

/-!
# The directory and the live engine agree

Through any run of deliveries, snapshots, crashes and recoveries the directory recovers to the core
the appended ops lead to, and a live engine holds that core. One delivery either changes nothing,
or its record is complete and both sides take the op, or the process dies with the record
incomplete and the directory is left where it was. Partial records do no harm until something is
written behind them.
-/

namespace OneBarrier

open Wire Durable LawfulStateMachine

variable {S : Type} [StateMachine S]

/-! ### Conditions on a run -/

/-- The codec limits: the op's keys, values and counts, and the snapshot the op leads to. -/
def History.InLimits (history : History S) : Event → Prop
  | .deliver _ ts op =>
      op.Fits ∧ ∀ engine ∈ history.engine, (engine.applyDedup ts op).2.Fits
  | .snapshot _ | .crash | .recover _ => True

/-- The record's own length field does not saturate. -/
def Event.RecordFits : Event → Prop
  | .deliver _ _ op => PayloadFits op.encode
  | .snapshot _ | .crash | .recover _ => True

/-- The append reaches no byte of the file. -/
def AppendFault.WritesNothing : AppendFault → Prop
  | .crashBefore | .failBefore => True
  | .crash written | .fail written => written = 0
  | .none => False

/-- The call's own snapshot is due and gets as far as removing the log. -/
def Engine.ReplacesLog (engine : Engine S) (faults : Faults) : Prop :=
  faults.append = .none ∧ engine.snapInterval ≤ engine.opsSinceSnap + 1 ∧
    (faults.snapshot = .none ∨ faults.snapshot = .crashAfter)

/-- Nothing is written behind a partial record, unless the same call replaces the log. -/
def History.NotBehindTorn (history : History S) : Event → Prop
  | .deliver faults _ op => ∀ engine ∈ history.engine,
      tornTail history.disk = [] ∨ op.seq ≤ engine.highWater op.client ∨
        faults.append.WritesNothing ∨ engine.ReplacesLog faults
  | .snapshot _ | .crash | .recover _ => True

instance (history : History S) : (event : Event) → Decidable (history.InLimits event)
  | .deliver _ ts op => inferInstanceAs (Decidable
      (op.Fits ∧ ∀ engine ∈ history.engine, (engine.applyDedup ts op).2.Fits))
  | .snapshot _ | .crash | .recover _ => inferInstanceAs (Decidable True)

instance : (event : Event) → Decidable event.RecordFits
  | .deliver _ _ op => inferInstanceAs (Decidable (PayloadFits op.encode))
  | .snapshot _ | .crash | .recover _ => inferInstanceAs (Decidable True)

instance : (fault : AppendFault) → Decidable fault.WritesNothing
  | .crashBefore | .failBefore => inferInstanceAs (Decidable True)
  | .crash written | .fail written => inferInstanceAs (Decidable (written = 0))
  | .none => inferInstanceAs (Decidable False)

instance (engine : Engine S) (faults : Faults) : Decidable (engine.ReplacesLog faults) :=
  inferInstanceAs (Decidable (_ ∧ _))

instance (history : History S) : (event : Event) → Decidable (history.NotBehindTorn event)
  | .deliver faults _ op => inferInstanceAs (Decidable (∀ engine ∈ history.engine,
      tornTail history.disk = [] ∨ op.seq ≤ engine.highWater op.client ∨
        faults.append.WritesNothing ∨ engine.ReplacesLog faults))
  | .snapshot _ | .crash | .recover _ => inferInstanceAs (Decidable True)

/-! ### One call -/

section Call

variable {engine : Engine S} {disk : Disk} {faults : Faults} {ts : UInt64} {op : Op}

theorem deliver_of_not_fresh (hcovered : ¬ (dedup S).fresh engine.toCore (ts, op)) :
    engine.deliver faults disk ts op
      = (.ok .suppressed,
        { engine with stats := { engine.stats with suppressed := engine.stats.suppressed + 1 } },
        disk) := by
  rw [Engine.deliver, applyDedup_of_not_fresh hcovered]

/-- The engine that has taken an op, before its record is written. -/
def Engine.taken (engine : Engine S) (ts : UInt64) (op : Op) : Engine S :=
  { engine with
    toCore := (dedup S).apply engine.toCore (ts, op)
    stats := { engine.stats with applied := engine.stats.applied + 1 } }

theorem deliver_of_fresh (hfresh : (dedup S).fresh engine.toCore (ts, op)) :
    engine.deliver faults disk ts op
      = match append faults.append disk ts op.encode with
        | (.ok (), disk) =>
            Engine.snapshotIfDue faults.snapshot
              { engine.taken ts op with opsSinceSnap := engine.opsSinceSnap + 1 } disk
              ((dedup S).output engine.toCore (ts, op))
        | (.err, disk) => (.err, engine.taken ts op, disk)
        | (.crash, disk) => (.crash, engine.taken ts op, disk) := by
  rw [Engine.deliver, applyDedup_of_fresh hfresh]
  rfl

variable (engine disk) in
theorem snapshot_toCore (fault : SnapshotFault) :
    (engine.snapshot fault disk).2.1.toCore = engine.toCore := by
  rw [Engine.snapshot]
  split <;> rfl

theorem snapshotIfDue_toCore (fault : SnapshotFault) (out : Output) :
    (engine.snapshotIfDue fault disk out).2.1.toCore = engine.toCore := by
  rw [Engine.snapshotIfDue]
  split
  · have hsnapshot := snapshot_toCore engine disk fault
    generalize engine.snapshot fault disk = result at hsnapshot ⊢
    obtain ⟨outcome, snapped, written⟩ := result
    cases outcome <;> exact hsnapshot
  · rfl

variable (engine disk faults ts op) in
/-- However a delivery ends, the engine in memory has taken the op. -/
theorem deliver_toCore :
    (engine.deliver faults disk ts op).2.1.toCore = (dedup S).deliver engine.toCore (ts, op) := by
  by_cases hfresh : (dedup S).fresh engine.toCore (ts, op)
  · rw [deliver_of_fresh hfresh, Journal.Machine.deliver_of_fresh hfresh]
    generalize append faults.append disk ts op.encode = result
    obtain ⟨outcome, written⟩ := result
    cases outcome with
    | ok value => exact snapshotIfDue_toCore _ _
    | err => rfl
    | crash => rfl
  · rw [deliver_of_not_fresh hfresh, Journal.Machine.deliver_of_not_fresh hfresh]

theorem snapshot_disk (fault : SnapshotFault) :
    (engine.snapshot fault disk).2.2 = (writeSnapshot fault disk engine.encodeSnapshot).2 := by
  rw [Engine.snapshot]
  generalize writeSnapshot fault disk engine.encodeSnapshot = result
  obtain ⟨outcome, written⟩ := result
  cases outcome <;> rfl

theorem snapshotIfDue_disk (fault : SnapshotFault) (out : Output) :
    (engine.snapshotIfDue fault disk out).2.2
      = if engine.snapInterval ≤ engine.opsSinceSnap then
          (writeSnapshot fault disk engine.encodeSnapshot).2
        else disk := by
  rw [Engine.snapshotIfDue]
  split
  · rw [← snapshot_disk]
    generalize engine.snapshot fault disk = result
    obtain ⟨outcome, snapped, written⟩ := result
    cases outcome <;> rfl
  · rfl

theorem snapshotIfDue_of_not_due {fault : SnapshotFault} {out : Output}
    (hnotdue : ¬ engine.snapInterval ≤ engine.opsSinceSnap) :
    engine.snapshotIfDue fault disk out = (.ok out, engine, disk) := if_neg hnotdue

theorem tornTail_writeSnapshot (hwhole : tornTail disk = []) (fault : SnapshotFault)
    (bytes : Bytes) : tornTail (writeSnapshot fault disk bytes).2 = [] := by
  cases fault <;> first | exact hwhole | rfl

variable (engine) in
theorem tornTail_deliver (hwhole : tornTail disk = []) (hop : op.Loggable)
    (hatomic : faults.append.IsAtomic (encodeRecord ts op.encode)) :
    tornTail (engine.deliver faults disk ts op).2.2 = [] := by
  by_cases hfresh : (dedup S).fresh engine.toCore (ts, op)
  · have hlogged := (store_append S hwhole ts hop).2
    rw [deliver_of_fresh hfresh]
    obtain ⟨fault, snapshotFault⟩ := faults
    cases fault with
    | none =>
        simp only [append, snapshotIfDue_disk]
        split
        · exact tornTail_writeSnapshot hlogged _ _
        · exact hlogged
    | crashBefore => exact hwhole
    | failBefore => exact hatomic.elim
    | fail written => exact hatomic.elim
    | crash written =>
        rcases hatomic with rfl | hwritten
        · simp only [append, List.take_zero, List.append_nil]
          exact hwhole
        · simpa [append, List.take_of_length_le hwritten] using hlogged
  · rw [deliver_of_not_fresh hfresh]
    exact hwhole

variable [LawfulStateMachine S]

theorem recovered_snapshotIfDue {core : Core S} (hcore : engine.toCore = core)
    (hencodable : Encodable core.state) (hfits : core.Fits) (hrecovered : disk.recovered S = core)
    (fault : SnapshotFault) (out : Output) :
    (engine.snapshotIfDue fault disk out).2.2.recovered S = core := by
  rw [snapshotIfDue_disk, hcore]
  split
  · exact recovered_writeSnapshot hencodable hfits hrecovered fault
  · exact hrecovered

/-- A snapshot that gets as far as removing the log makes the directory recover to its core,
whatever the log held. -/
theorem recovered_snapshotIfDue_of_replaces {core : Core S} (hcore : engine.toCore = core)
    (hencodable : Encodable core.state) (hfits : core.Fits)
    (hdue : engine.snapInterval ≤ engine.opsSinceSnap) {fault : SnapshotFault}
    (hfault : fault = .none ∨ fault = .crashAfter) (out : Output) :
    (engine.snapshotIfDue fault disk out).2.2.recovered S = core := by
  have hremoved : { disk with snapshot := some core.encodeSnapshot, oplog := none }.recovered S
      = core := by
    rw [Disk.recovered, store_rename hencodable hfits { disk with oplog := none }]
    exact Journal.Store.recovered_clear core
  rw [snapshotIfDue_disk, hcore, if_pos hdue]
  rcases hfault with rfl | rfl <;> exact hremoved

omit [LawfulStateMachine S] in
theorem snapshotIfDue_outcome {fault : SnapshotFault} (hfault : fault ≠ .failBefore)
    (out : Output) :
    (engine.snapshotIfDue fault disk out).1 = .ok out
      ∨ (engine.snapshotIfDue fault disk out).1 = .crash := by
  rw [Engine.snapshotIfDue]
  split
  · rw [Engine.snapshot]
    cases fault with
    | failBefore => exact absurd rfl hfault
    | none => exact .inl rfl
    | keepLog => exact .inl rfl
    | crashBefore => exact .inr rfl
    | crashRenamed => exact .inr rfl
    | crashAfter => exact .inr rfl
  · exact .inl rfl

/-- **One delivery**, of an op the log can carry to an engine its directory recovers to. Either the
op is a duplicate and nothing happens; or its record is complete and the engine and the directory
both take it; or the process dies with the record incomplete, and the directory recovers to what
it did before. -/
theorem deliver_cases (hlive : disk.recovered S = engine.toCore)
    (hencodable : Encodable ((dedup S).deliver engine.toCore (ts, op)).state)
    (hfits : ((dedup S).deliver engine.toCore (ts, op)).Fits) (hop : op.Loggable)
    (hcrash : faults.append.IsCrash) (hsnapshot : faults.snapshot ≠ .failBefore)
    (hclean : tornTail disk = [] ∨ op.seq ≤ engine.highWater op.client ∨
      faults.append.WritesNothing ∨ engine.ReplacesLog faults) :
    let result := engine.deliver faults disk ts op
    let complete := faults.append.completes (encodeRecord ts op.encode)
    (¬ (dedup S).fresh engine.toCore (ts, op) ∧ result.1 = .ok .suppressed
        ∧ result.2.1.toCore = engine.toCore ∧ result.2.2 = disk)
      ∨ ((dedup S).fresh engine.toCore (ts, op) ∧ complete = true
        ∧ (result.1 = .ok ((dedup S).output engine.toCore (ts, op)) ∨ result.1 = .crash)
        ∧ result.2.1.toCore = (dedup S).deliver engine.toCore (ts, op)
        ∧ result.2.2.recovered S = (dedup S).deliver engine.toCore (ts, op))
      ∨ ((dedup S).fresh engine.toCore (ts, op) ∧ complete = false ∧ result.1 = .crash
        ∧ result.2.2.recovered S = engine.toCore) := by
  by_cases hfresh : (dedup S).fresh engine.toCore (ts, op)
  · right
    rw [Journal.Machine.deliver_of_fresh hfresh] at hencodable hfits ⊢
    have htorn : ¬ op.seq ≤ engine.highWater op.client := UInt64.not_le.mpr hfresh
    have happend : tornTail disk = [] →
        { disk with oplog := some (disk.oplog.getD [] ++ encodeRecord ts op.encode) }.recovered S
          = (dedup S).apply engine.toCore (ts, op) := by
      intro hwhole
      rw [recovered_append S hwhole ts hop, hlive, Journal.Machine.deliver_of_fresh hfresh]
    rw [deliver_of_fresh hfresh]
    obtain ⟨fault, snapshotFault⟩ := faults
    cases fault with
    | none =>
        left
        refine ⟨hfresh, rfl, snapshotIfDue_outcome hsnapshot _, snapshotIfDue_toCore _ _, ?_⟩
        rcases hclean with hwhole | hcovered | hnothing | ⟨-, hdue, hfault⟩
        · exact recovered_snapshotIfDue rfl hencodable hfits (happend hwhole) _ _
        · exact absurd hcovered htorn
        · exact hnothing.elim
        · exact recovered_snapshotIfDue_of_replaces rfl hencodable hfits hdue hfault _
    | crashBefore => exact .inr ⟨hfresh, rfl, rfl, hlive⟩
    | failBefore => exact hcrash.elim
    | fail written => exact hcrash.elim
    | crash written =>
        rcases hclean with hwhole | hcovered | rfl | ⟨hnone, -⟩
        · by_cases hwritten : (encodeRecord ts op.encode).length ≤ written
          · left
            refine ⟨hfresh, decide_eq_true hwritten, .inr rfl, rfl, ?_⟩
            simpa [append, List.take_of_length_le hwritten] using happend hwhole
          · right
            refine ⟨hfresh, decide_eq_false hwritten, rfl, ?_⟩
            exact (recovered_append_take S hwhole ts hop (by omega)).trans hlive
        · exact absurd hcovered htorn
        · right
          refine ⟨hfresh, by simp [AppendFault.completes, encodeRecord], rfl, ?_⟩
          simp only [append, List.take_zero, List.append_nil]
          exact hlive
        · exact AppendFault.noConfusion hnone
  · left
    rw [deliver_of_not_fresh hfresh]
    exact ⟨hfresh, rfl, rfl, rfl⟩

end Call

/-! ### Whole runs -/

namespace History

/-- The conditions under which a step keeps the directory and the engine together. -/
def Sound (history : History S) (event : Event) : Prop :=
  event.Torn ∧ history.InLimits event ∧ event.RecordFits ∧ history.NotBehindTorn event

instance (history : History S) (event : Event) : Decidable (history.Sound event) :=
  inferInstanceAs (Decidable (_ ∧ _))

structure Coherent (history : History S) : Prop where
  recovered : history.disk.recovered S = serial S history.appended
  live : ∀ engine ∈ history.engine, engine.toCore = serial S history.appended
  fits : ∀ record ∈ history.appended, record.2.Fits
  bounded : (serial S history.appended).Fits

/-- What delivering a record can do to a coherent history. -/
inductive Delivered (history : History S) (record : Record) : History S → Prop
  | duplicate (engine : Engine S)
      (hcovered : ¬ (dedup S).fresh (serial S history.appended) record)
      (hcore : engine.toCore = serial S history.appended) :
      Delivered history record { history with engine := some engine }
  | acked (engine : Engine S) (disk : Disk)
      (hfresh : (dedup S).fresh (serial S history.appended) record)
      (hcore : engine.toCore = serial S (history.appended ++ [record]))
      (hdisk : disk.recovered S = serial S (history.appended ++ [record])) :
      Delivered history record
        { history with
          disk, engine := some engine
          appended := history.appended ++ [record]
          acked := history.acked
            ++ [(record, (dedup S).output (serial S history.appended) record)] }
  | unacked (disk : Disk)
      (hfresh : (dedup S).fresh (serial S history.appended) record)
      (hdisk : disk.recovered S = serial S (history.appended ++ [record])) :
      Delivered history record
        { history with
          disk, engine := none
          appended := history.appended ++ [record]
          inFlight := history.inFlight ++ [record] }
  | lost (disk : Disk)
      (hfresh : (dedup S).fresh (serial S history.appended) record)
      (hdisk : disk.recovered S = serial S history.appended) :
      Delivered history record
        { history with disk, engine := none, inFlight := history.inFlight ++ [record] }

variable {history : History S} {engine : Engine S} {faults : Faults} {ts : UInt64} {op : Op}

theorem logged_of_fresh (hfresh : (dedup S).fresh engine.toCore (ts, op)) :
    history.logged engine faults ts op
      = if faults.append.completes (encodeRecord ts op.encode) then history.appended ++ [(ts, op)]
        else history.appended := by
  simp only [logged, Engine.logs, applyDedup_of_fresh hfresh, Option.isSome_some, Bool.true_and]

theorem logged_of_not_fresh (hcovered : ¬ (dedup S).fresh engine.toCore (ts, op)) :
    history.logged engine faults ts op = history.appended := by
  simp only [logged, Engine.logs, applyDedup_of_not_fresh hcovered, Option.isSome_none,
    Bool.false_and, Bool.false_eq_true, if_false]

variable [LawfulStateMachine S]

theorem delivered (hcoherent : history.Coherent) (hengine : history.engine = some engine)
    (hsound : history.Sound (.deliver faults ts op)) :
    history.Delivered (ts, op) (history.deliver engine faults ts op) := by
  obtain ⟨⟨hcrash, hsnapshot⟩, ⟨hop, hbounded⟩, hrecord, hclean⟩ := hsound
  have hcore := hcoherent.live engine hengine
  have hnext : (dedup S).deliver engine.toCore (ts, op)
      = serial S (history.appended ++ [(ts, op)]) := by rw [serial_concat, hcore]
  have hencodable : Encodable ((dedup S).deliver engine.toCore (ts, op)).state := by
    rw [hnext]
    refine encodable_serial fun record hrecord => ?_
    rcases List.mem_append.mp hrecord with hold | hnew
    · exact hcoherent.fits record hold
    · rwa [List.mem_singleton.mp hnew]
  have hfits : ((dedup S).deliver engine.toCore (ts, op)).Fits := by
    rw [← snd_applyDedup]
    exact hbounded engine hengine
  have hlive : history.disk.recovered S = engine.toCore := by rw [hcoherent.recovered, hcore]
  have hcases := deliver_cases hlive hencodable hfits ⟨hop, hrecord⟩ hcrash hsnapshot
    (hclean engine hengine)
  rw [History.deliver]
  generalize hresult : engine.deliver faults history.disk ts op = result at hcases
  obtain ⟨outcome, after, disk⟩ := result
  rw [hnext] at hcases
  rcases hcases with ⟨hcovered, rfl, hafter, rfl⟩ | ⟨hfresh, hcomplete, hout, hafter, hdisk⟩
    | ⟨hfresh, hcomplete, rfl, hdisk⟩
  · rw [logged_of_not_fresh hcovered]
    rw [hcore] at hcovered hafter
    exact Delivered.duplicate after hcovered hafter
  · rw [logged_of_fresh hfresh, if_pos hcomplete]
    rw [hcore] at hfresh hout
    rcases hout with rfl | rfl
    · have hout : (dedup S).output (serial S history.appended) (ts, op) ≠ .suppressed :=
        apply_ne_suppressed _ _
      simp only [if_neg hout]
      exact Delivered.acked after disk hfresh hafter hdisk
    · exact Delivered.unacked disk hfresh hdisk
  · rw [logged_of_fresh hfresh, if_neg (by simp [hcomplete])]
    rw [hcore] at hfresh hdisk
    exact Delivered.lost disk hfresh hdisk

omit [LawfulStateMachine S] in
theorem Delivered.coherent {record : Record} {next : History S}
    (hdelivered : history.Delivered record next) (hcoherent : history.Coherent)
    (hrecord : record.2.Fits) (hbounded : (serial S (history.appended ++ [record])).Fits) :
    next.Coherent := by
  have hfits : ∀ other ∈ history.appended ++ [record], other.2.Fits := by
    intro other hother
    rcases List.mem_append.mp hother with hold | hnew
    · exact hcoherent.fits other hold
    · rwa [List.mem_singleton.mp hnew]
  cases hdelivered with
  | duplicate engine hcovered hcore =>
      exact { hcoherent with live := by rintro engine ⟨⟩; exact hcore }
  | acked engine disk hfresh hcore hdisk =>
      exact ⟨hdisk, by rintro engine ⟨⟩; exact hcore, hfits, hbounded⟩
  | unacked disk hfresh hdisk => exact ⟨hdisk, by rintro engine ⟨⟩, hfits, hbounded⟩
  | lost disk hfresh hdisk =>
      exact ⟨hdisk, by rintro engine ⟨⟩, hcoherent.fits, hcoherent.bounded⟩

theorem Coherent.snapshot (hcoherent : history.Coherent) (hengine : history.engine = some engine)
    (fault : SnapshotFault) : (history.snapshot engine fault).Coherent := by
  have hcore := hcoherent.live engine hengine
  have hencodable : Encodable (serial S history.appended).state :=
    encodable_serial hcoherent.fits
  have hdisk := recovered_writeSnapshot hencodable hcoherent.bounded hcoherent.recovered fault
  rw [← hcore, ← snapshot_disk, hcore] at hdisk
  have hafter := snapshot_toCore engine history.disk fault
  rw [hcore] at hafter
  rw [History.snapshot]
  generalize engine.snapshot fault history.disk = result at hdisk hafter
  obtain ⟨outcome, after, disk⟩ := result
  cases outcome with
  | ok => exact ⟨hdisk, by rintro engine ⟨⟩; exact hafter, hcoherent.fits, hcoherent.bounded⟩
  | err => exact ⟨hdisk, by rintro engine ⟨⟩; exact hafter, hcoherent.fits, hcoherent.bounded⟩
  | crash => exact ⟨hdisk, by rintro engine ⟨⟩, hcoherent.fits, hcoherent.bounded⟩

/-- **The step lemma.** -/
theorem Coherent.step (hcoherent : history.Coherent) {event : Event}
    (hsound : history.Sound event) : (history.step event).Coherent := by
  cases event with
  | deliver faults ts op =>
      rw [History.step]
      cases hengine : history.engine with
      | none => exact hcoherent
      | some engine =>
          have hbounded : (serial S (history.appended ++ [(ts, op)])).Fits := by
            rw [serial_concat, ← hcoherent.live engine hengine, ← snd_applyDedup]
            exact hsound.2.1.2 engine hengine
          exact (delivered hcoherent hengine hsound).coherent hcoherent hsound.2.1.1 hbounded
  | snapshot fault =>
      rw [History.step]
      cases hengine : history.engine with
      | none => exact hcoherent
      | some engine => exact hcoherent.snapshot hengine fault
  | crash => exact { hcoherent with live := by rintro engine ⟨⟩ }
  | recover interval =>
      refine { hcoherent with live := ?_ }
      rintro engine ⟨⟩
      exact (recover_toCore _ _).trans hcoherent.recovered

variable (S) in
theorem coherent_start (interval : UInt64) : (start interval : History S).Coherent := by
  refine ⟨rfl, by rintro engine ⟨⟩; rfl, by simp [start], ?_, length_default⟩
  exact (by decide : (∅ : BTreeMap UInt32 UInt64).size < 2 ^ 32)

theorem coherent_run {interval : UInt64} {events : List Event}
    (hsound : Run.Guarded step Sound (start interval : History S) events) :
    (Run.run step (start interval : History S) events).Coherent :=
  Run.invariant_run Coherent (fun _ _ hsound hcoherent => hcoherent.step hsound) hsound
    (coherent_start S interval)

omit [LawfulStateMachine S] in
theorem tornTail_step (hwhole : tornTail history.disk = []) {event : Event}
    (hatomic : event.RecordAtomic) (hlimits : history.InLimits event)
    (hrecord : event.RecordFits) : tornTail (history.step event).disk = [] := by
  cases event with
  | deliver faults ts op =>
      rw [History.step]
      cases hengine : history.engine with
      | none => exact hwhole
      | some engine =>
          have hdisk := tornTail_deliver engine hwhole ⟨hlimits.1, hrecord⟩ hatomic.1
          simp only [History.deliver]
          generalize engine.deliver faults history.disk ts op = result at hdisk
          obtain ⟨outcome, after, disk⟩ := result
          cases outcome <;> exact hdisk
  | snapshot fault =>
      rw [History.step]
      cases hengine : history.engine with
      | none => exact hwhole
      | some engine =>
          have hdisk := tornTail_writeSnapshot hwhole fault engine.encodeSnapshot
          rw [← snapshot_disk] at hdisk
          simp only [History.snapshot]
          generalize engine.snapshot fault history.disk = result at hdisk
          obtain ⟨outcome, after, disk⟩ := result
          cases outcome <;> exact hdisk
  | crash => exact hwhole
  | recover interval => exact hwhole

/-- The steps of the record-atomic crash model, within every limit of the formats. -/
def Atomic (history : History S) (event : Event) : Prop :=
  event.RecordAtomic ∧ history.InLimits event ∧ event.RecordFits

instance (history : History S) (event : Event) : Decidable (history.Atomic event) :=
  inferInstanceAs (Decidable (_ ∧ _))

omit [LawfulStateMachine S] in
/-- A log that ends at a record boundary is never torn by an atomic step. -/
theorem Atomic.sound {event : Event} (hatomic : history.Atomic event)
    (hwhole : tornTail history.disk = []) : history.Sound event := by
  obtain ⟨hevent, hlimits, hrecord⟩ := hatomic
  cases event with
  | deliver faults ts op =>
      refine ⟨⟨?_, hevent.2⟩, hlimits, hrecord, fun _ _ => .inl hwhole⟩
      obtain ⟨fault, snapshotFault⟩ := faults
      cases fault <;> first | trivial | exact hevent.1.elim
  | snapshot fault => exact ⟨hevent, hlimits, hrecord, trivial⟩
  | crash => exact ⟨hevent, hlimits, hrecord, trivial⟩
  | recover interval => exact ⟨hevent, hlimits, hrecord, trivial⟩

omit [LawfulStateMachine S] in
theorem sound_of_atomic {interval : UInt64} {events : List Event}
    (hatomic : Run.Guarded step Atomic (start interval : History S) events) :
    Run.Guarded step Sound (start interval : History S) events := by
  refine hatomic.mono (fun history => tornTail history.disk = []) ?_ ?_ rfl
  · exact fun history event hstep hwhole => tornTail_step hwhole hstep.1 hstep.2.1 hstep.2.2
  · exact fun history event hstep hwhole => hstep.sound hwhole

/-- **Disk coherence.** In every state of every run of the record-atomic crash model within the
formats' limits, a live engine holds what its directory recovers to, and its state is the serial
reference over the appended ops. -/
theorem live_eq_recover {interval : UInt64} {events : List Event}
    (hatomic : Run.Guarded step Atomic (start interval : History KvStore) events) :
    let history := Run.run step (start interval : History KvStore) events
    ∀ engine ∈ history.engine,
      (∀ next : UInt64, engine.toCore = (Engine.recover history.disk next : Engine KvStore).toCore)
        ∧ engine.state = referenceApply KvStore (history.appended.map Prod.snd) := by
  intro history engine hengine
  have hcoherent := coherent_run (sound_of_atomic hatomic)
  have hlive := hcoherent.live engine hengine
  refine ⟨?_, ?_⟩
  · intro next
    rw [recover_toCore, hcoherent.recovered, hlive]
  · rw [hlive, state_serial]

theorem live_eq_recover_crash_before_log_removal :
    let events := [Event.deliver Faults.clean 5 ⟨1, 1, .incr "k" 7⟩,
      .deliver ⟨.none, .crashRenamed⟩ 6 ⟨1, 2, .set "k" [65]⟩, .recover 3]
    let history := Run.run step (start 2 : History KvStore) events
    ∃ engine ∈ history.engine,
      (∀ next : UInt64, engine.toCore = (Engine.recover history.disk next : Engine KvStore).toCore)
        ∧ engine.state = referenceApply KvStore (history.appended.map Prod.snd) := by
  intro events history
  have hlive : history.engine.isSome = true := by decide +kernel
  obtain ⟨engine, hengine⟩ := Option.isSome_iff_exists.mp hlive
  exact ⟨engine, hengine, live_eq_recover (by decide +kernel) engine hengine⟩

/-! ### The limit the record format adds -/

def wideSet (size : Nat) : Op :=
  { client := 1, seq := 1, kind := .set "" (List.replicate size 0) }

theorem length_encode_wideSet (size : Nat) : (wideSet size).encode.length = size + 19 := by
  have hkey : (Utf8.asBytes "").length = 0 := by decide
  rw [wideSet, Op.length_encode_set, hkey, List.length_replicate, Nat.zero_add]

theorem fits_wideSet {size : Nat} (hsize : size < 2 ^ 32) : (wideSet size).Fits := by
  have hkey : KeyFits "" := by decide
  refine ⟨hkey, ?_⟩
  rwa [ValueFits, List.length_replicate]

theorem fits_applyDedup_wideSet {size : Nat} (hsize : size + 10 < 2 ^ 32) (ts : UInt64) :
    ((Core.init : Core KvStore).applyDedup ts (wideSet size)).2.Fits := by
  have hstate : ((Core.init : Core KvStore).applyDedup ts (wideSet size)).2.state
      = ⟨(∅ : BTreeMap String Bytes).insert "" (List.replicate size 0)⟩ := rfl
  have hentries (value : Bytes) :
      ((∅ : BTreeMap String Bytes).insert "" value).toList = [("", value)] := rfl
  have hkey : (Utf8.asBytes "").length = 0 := by decide
  have hclients : ((Core.init : Core KvStore).applyDedup ts (wideSet size)).2.applied.size = 1 := rfl
  refine ⟨by rw [hclients]; decide, ?_⟩
  change (KvStore.snapshot _).length < _
  rw [hstate, KvStore.snapshot, hentries]
  simp only [List.length_append, length_lengthBytes, List.flatMap_cons, List.flatMap_nil,
    KvStore.length_encodeEntry, List.length_replicate, List.length_nil, hkey]
  omega

/-- A record one byte too long for the log: the engine has the op, and the directory does not. -/
theorem wideSet_lost {size : Nat} (hsize : size + 19 = 2 ^ 32) :
    let events := [Event.deliver Faults.clean 1 (wideSet size)]
    let history := Run.run step (start 100 : History KvStore) events
    Run.Guarded step (fun history event => event.RecordAtomic ∧ history.InLimits event)
        (start 100 : History KvStore) events
      ∧ ∃ engine ∈ history.engine, engine.highWater 1 = 1
        ∧ (Engine.recover history.disk 100 : Engine KvStore).highWater 1 = 0 := by
  have hlength := length_encode_wideSet size
  rw [hsize] at hlength
  have hop := fits_wideSet (by omega : size < 2 ^ 32)
  have hcore := fits_applyDedup_wideSet (by omega : size + 10 < 2 ^ 32) 1
  have hshort : Op.decode ((wideSet size).encode.take (2 ^ 32 - 1)) = none := by
    rw [Op.decode, (readOp_exact hop).rejects _ (by omega), Option.map_none]
  have hrecord : (split (encodeRecord 1 (wideSet size).encode)).1
      = [(1, (wideSet size).encode.take (2 ^ 32 - 1))] := by
    rw [split_encodeRecord_of_length_eq hlength]
  have hrecovered := recovered_of_split_eq_singleton hrecord
  rw [hshort] at hrecovered
  refine ⟨⟨⟨⟨trivial, by decide⟩, hop, ?_⟩, trivial⟩, ?_⟩
  · rintro engine ⟨⟩
    exact hcore
  · refine ⟨_, rfl, rfl, ?_⟩
    rw [recover_toCore]
    exact congrArg (fun core => core.highWater 1) hrecovered

theorem widest_set_not_recovered :
    let events := [Event.deliver Faults.clean 1 (wideSet (2 ^ 32 - 19))]
    let history := Run.run step (start 100 : History KvStore) events
    Run.Guarded step (fun history event => event.RecordAtomic ∧ history.InLimits event)
        (start 100 : History KvStore) events
      ∧ ∃ engine ∈ history.engine, engine.highWater 1 = 1
        ∧ (Engine.recover history.disk 100 : Engine KvStore).highWater 1 = 0 :=
  wideSet_lost (by decide)

end History

end OneBarrier
