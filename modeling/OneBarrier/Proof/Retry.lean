import OneBarrier.Proof.Coherence

/-!
# Deliveries that fail

The op is applied in memory before its record is written. When the append fails once the whole record
is in the log, or the snapshot behind it fails, nothing is lost: the retry is suppressed and the
record is there. When it fails sooner, the retry is suppressed all the same and the record is not
there.
-/

namespace OneBarrier

open Wire Durable LawfulStateMachine

variable {S : Type} [StateMachine S]

/-! ### One call -/

/-- The append returns an error before the whole record is in the file. -/
def AppendFault.FailsShort (record : Bytes) : AppendFault → Prop
  | .failBefore => True
  | .fail written => written < record.length
  | .none | .crashBefore | .crash _ => False

instance (record : Bytes) : (fault : AppendFault) → Decidable (fault.FailsShort record)
  | .failBefore => inferInstanceAs (Decidable True)
  | .fail written => inferInstanceAs (Decidable (written < record.length))
  | .none | .crashBefore | .crash _ => inferInstanceAs (Decidable False)

/-- A new op whose append fails short. -/
def Engine.LosesRecord (engine : Engine S) (faults : Faults) (ts : UInt64) (op : Op) : Prop :=
  (dedup S).fresh engine.toCore (ts, op) ∧ faults.append.FailsShort (encodeRecord ts op.encode)

instance (engine : Engine S) (faults : Faults) (ts : UInt64) (op : Op) :
    Decidable (engine.LosesRecord faults ts op) := inferInstanceAs (Decidable (_ ∧ _))

/-- The op's record is in the log, or the snapshot covers it. -/
def Disk.Holds (S : Type) [StateMachine S] (disk : Disk) (ts : UInt64) (op : Op) : Prop :=
  (ts, op) ∈ disk.records ∨ ¬ (dedup S).fresh (Engine.loaded disk) (ts, op)

/-- An error leaves the op's record durable, or memory as it was. -/
def Engine.FailsAtomically (engine : Engine S) (disk : Disk) (faults : Faults) (ts : UInt64)
    (op : Op) : Prop :=
  let result := engine.deliver faults disk ts op
  result.1 = .err → result.2.2.Holds S ts op ∨ result.2.1.toCore = engine.toCore

variable {engine : Engine S} {disk : Disk} {faults : Faults} {ts : UInt64} {op : Op}

theorem Disk.Holds.not_fresh (hholds : disk.Holds S ts op) :
    ¬ (dedup S).fresh (disk.recovered S) (ts, op) := by
  obtain hmem | hcovered := hholds
  · exact Journal.Machine.not_fresh_deliverAll_of_mem hmem
  · exact Journal.Machine.not_fresh_deliverAll hcovered

theorem snapshotIfDue_disk_of_err {fault : SnapshotFault} {out : Output}
    (herr : (engine.snapshotIfDue fault disk out).1 = .err) :
    fault = .failBefore ∧ engine.snapInterval ≤ engine.opsSinceSnap
      ∧ (engine.snapshotIfDue fault disk out).2.2 = disk := by
  rw [Engine.snapshotIfDue, Engine.snapshot] at herr ⊢
  split at herr
  · rename_i hdue
    cases fault with
    | failBefore => exact ⟨rfl, hdue, by rw [if_pos hdue]; rfl⟩
    | none => cases herr
    | crashBefore => cases herr
    | crashRenamed => cases herr
    | keepLog => cases herr
    | crashAfter => cases herr
  · cases herr

theorem snapshotIfDue_of_due {out : Output} (hdue : engine.snapInterval ≤ engine.opsSinceSnap) :
    (engine.snapshotIfDue .failBefore disk out).1 = .err := by
  rw [Engine.snapshotIfDue, if_pos hdue]
  rfl

/-- An error of a new op: either the append has failed short, or the whole record is behind the log
and nothing else has changed. -/
theorem deliver_of_err (hfresh : (dedup S).fresh engine.toCore (ts, op))
    (herr : (engine.deliver faults disk ts op).1 = .err) :
    faults.append.FailsShort (encodeRecord ts op.encode)
      ∨ (faults.append.completes (encodeRecord ts op.encode) = true
        ∧ (faults.append = .none → faults.snapshot = .failBefore)
        ∧ (engine.deliver faults disk ts op).2.2
          = { disk with oplog := some (disk.oplog.getD [] ++ encodeRecord ts op.encode) }) := by
  rw [deliver_of_fresh hfresh] at herr ⊢
  obtain ⟨fault, snapshotFault⟩ := faults
  cases fault with
  | none =>
      obtain ⟨hfault, -, hdisk⟩ := snapshotIfDue_disk_of_err herr
      exact .inr ⟨rfl, fun _ => hfault, hdisk⟩
  | crashBefore => cases herr
  | failBefore => exact .inl trivial
  | crash written => cases herr
  | fail written =>
      by_cases hshort : written < (encodeRecord ts op.encode).length
      · exact .inl hshort
      · have hwhole := Nat.not_lt.mp hshort
        refine .inr ⟨decide_eq_true hwhole, AppendFault.noConfusion, ?_⟩
        simp only [append, List.take_of_length_le hwhole]

/-- An append that fails short changes no record of the log. -/
theorem deliver_of_failsShort (hwhole : tornTail disk = []) (hop : op.Loggable)
    (hloses : engine.LosesRecord faults ts op) :
    (engine.deliver faults disk ts op).1 = .err
      ∧ (engine.deliver faults disk ts op).2.2.store S = disk.store S := by
  obtain ⟨hfresh, hshort⟩ := hloses
  rw [deliver_of_fresh hfresh]
  obtain ⟨fault, snapshotFault⟩ := faults
  cases fault with
  | none => exact hshort.elim
  | crashBefore => exact hshort.elim
  | failBefore => exact ⟨rfl, rfl⟩
  | crash written => exact hshort.elim
  | fail written => exact ⟨rfl, (store_append_take S hwhole ts hop hshort).1⟩

theorem Disk.Holds.of_append (hwhole : tornTail disk = []) (hop : op.Loggable) :
    { disk with
      oplog := some (disk.oplog.getD [] ++ encodeRecord ts op.encode) }.Holds S ts op := by
  have hrecords := congrArg Journal.Store.log (store_append S hwhole ts hop).1
  refine .inl ?_
  rw [show Disk.records _ = disk.records ++ [(ts, op)] from hrecords]
  exact List.mem_append_right _ List.mem_cons_self

theorem fresh_of_err (herr : (engine.deliver faults disk ts op).1 = .err) :
    (dedup S).fresh engine.toCore (ts, op) := by
  by_contra hcovered
  rw [deliver_of_not_fresh hcovered] at herr
  cases herr

/-- **One call.** Behind a whole log, an error is atomic unless the append of a new op fails short. -/
theorem failsAtomically_iff (hwhole : tornTail disk = []) (hop : op.Loggable)
    (hnew : (dedup S).fresh engine.toCore (ts, op) → (dedup S).fresh (disk.recovered S) (ts, op)) :
    engine.FailsAtomically disk faults ts op ↔ ¬ engine.LosesRecord faults ts op := by
  constructor
  · intro hatomic hloses
    obtain ⟨herr, hstore⟩ := deliver_of_failsShort hwhole hop hloses
    obtain hholds | hsame := hatomic herr
    · have hcovered := hholds.not_fresh
      rw [Disk.recovered, hstore] at hcovered
      exact hcovered (hnew hloses.1)
    · rw [deliver_toCore] at hsame
      exact Journal.Machine.not_fresh_deliver_self (hsame.symm ▸ hloses.1)
  · intro hkeeps herr
    have hfresh := fresh_of_err herr
    obtain hshort | ⟨-, -, hdisk⟩ := deliver_of_err hfresh herr
    · exact absurd ⟨hfresh, hshort⟩ hkeeps
    · rw [hdisk]
      exact .inl (Disk.Holds.of_append hwhole hop)

/-- A call that does not return an error ends as it does with crashes for its only faults, and is as
safe behind a partial record. -/
theorem exists_torn (hok : (engine.deliver faults disk ts op).1 ≠ .err)
    (hclean : tornTail disk = [] ∨ op.seq ≤ engine.highWater op.client ∨
      faults.append.WritesNothing ∨ engine.ReplacesLog faults) :
    ∃ clean : Faults, (clean.append.IsCrash ∧ clean.snapshot ≠ .failBefore)
      ∧ engine.deliver faults disk ts op = engine.deliver clean disk ts op
      ∧ engine.logs faults ts op = engine.logs clean ts op
      ∧ (tornTail disk = [] ∨ op.seq ≤ engine.highWater op.client ∨
        clean.append.WritesNothing ∨ engine.ReplacesLog clean) := by
  by_cases hfresh : (dedup S).fresh engine.toCore (ts, op)
  · rw [deliver_of_fresh hfresh] at hok ⊢
    obtain ⟨fault, snapshotFault⟩ := faults
    cases fault with
    | none =>
        by_cases hfault : snapshotFault = .failBefore
        · subst hfault
          have hnotdue : ¬ engine.snapInterval ≤ engine.opsSinceSnap + 1 :=
            fun hdue => hok (snapshotIfDue_of_due hdue)
          refine ⟨Faults.clean, ⟨trivial, SnapshotFault.noConfusion⟩, ?_, rfl, ?_⟩
          · rw [deliver_of_fresh hfresh]
            exact (snapshotIfDue_of_not_due hnotdue).trans (snapshotIfDue_of_not_due hnotdue).symm
          · rcases hclean with hwhole | hcovered | hnothing | ⟨-, hdue, -⟩
            · exact .inl hwhole
            · exact .inr (.inl hcovered)
            · exact hnothing.elim
            · exact absurd hdue hnotdue
        · exact ⟨⟨.none, snapshotFault⟩, ⟨trivial, hfault⟩, by rw [deliver_of_fresh hfresh], rfl,
            hclean⟩
    | crashBefore =>
        refine ⟨⟨.crashBefore, .none⟩, ⟨trivial, SnapshotFault.noConfusion⟩, ?_, rfl,
          .inr (.inr (.inl trivial))⟩
        rw [deliver_of_fresh hfresh]
        rfl
    | failBefore => exact absurd rfl hok
    | crash written =>
        refine ⟨⟨.crash written, .none⟩, ⟨trivial, SnapshotFault.noConfusion⟩, ?_, rfl, ?_⟩
        · rw [deliver_of_fresh hfresh]
          rfl
        · rcases hclean with hwhole | hcovered | hnothing | ⟨hnone, -⟩
          · exact .inl hwhole
          · exact .inr (.inl hcovered)
          · exact .inr (.inr (.inl hnothing))
          · exact AppendFault.noConfusion hnone
    | fail written => exact absurd rfl hok
  · refine ⟨Faults.clean, ⟨trivial, SnapshotFault.noConfusion⟩, ?_, ?_,
      .inr (.inl (UInt64.not_lt.mp hfresh))⟩
    · rw [deliver_of_not_fresh hfresh, deliver_of_not_fresh hfresh]
    · rw [Engine.logs, Engine.logs, applyDedup_of_not_fresh hfresh]
      rfl

/-! ### Runs -/

namespace History

/-- A step that keeps the record of every op the engine takes: no append of a new op fails short, the
formats' limits hold, and nothing is written behind a partial record. -/
def Keeps (history : History S) (event : Event) : Prop :=
  (match event with
    | .deliver faults ts op => ∀ engine ∈ history.engine, ¬ engine.LosesRecord faults ts op
    | .snapshot _ | .crash | .recover _ => True)
  ∧ history.InLimits event ∧ event.RecordFits ∧ history.NotBehindTorn event

instance (history : History S) : (event : Event) → Decidable (history.Keeps event)
  | .deliver faults ts op => inferInstanceAs (Decidable
      ((∀ engine ∈ history.engine, ¬ engine.LosesRecord faults ts op) ∧ _))
  | .snapshot _ | .crash | .recover _ => inferInstanceAs (Decidable (True ∧ _))

variable {history : History S}

theorem exists_sound (hengine : history.engine = some engine)
    (hkeeps : history.Keeps (.deliver faults ts op))
    (hok : (engine.deliver faults history.disk ts op).1 ≠ .err) :
    ∃ clean : Faults, history.Sound (.deliver clean ts op)
      ∧ history.deliver engine faults ts op = history.deliver engine clean ts op := by
  obtain ⟨-, hlimits, hrecord, hclean⟩ := hkeeps
  obtain ⟨clean, htorn, hdeliver, hlogs, hclean⟩ := exists_torn hok (hclean engine hengine)
  refine ⟨clean, ⟨htorn, hlimits, hrecord, ?_⟩, ?_⟩
  · intro other hother
    obtain rfl : engine = other := Option.some.inj (hengine.symm.trans hother)
    exact hclean
  · simp only [History.deliver, logged, hdeliver, hlogs]

/-- An error leaves the whole record behind a log that ends at a record boundary. -/
theorem Keeps.appended_of_err (hkeeps : history.Keeps (.deliver faults ts op))
    (hengine : history.engine = some engine)
    (herr : (engine.deliver faults history.disk ts op).1 = .err) :
    tornTail history.disk = []
      ∧ faults.append.completes (encodeRecord ts op.encode) = true
      ∧ (engine.deliver faults history.disk ts op).2.2 = { history.disk with
        oplog := some (history.disk.oplog.getD [] ++ encodeRecord ts op.encode) } := by
  have hfresh := fresh_of_err herr
  obtain hshort | ⟨hcompletes, hnone, hdisk⟩ := deliver_of_err hfresh herr
  · exact absurd ⟨hfresh, hshort⟩ (hkeeps.1 engine hengine)
  refine ⟨?_, hcompletes, hdisk⟩
  rcases hkeeps.2.2.2 engine hengine with hwhole | hcovered | hnothing | ⟨happend, -, hfault⟩
  · exact hwhole
  · exact absurd hcovered (UInt64.not_le.mpr hfresh)
  · have hlong : 0 < (encodeRecord ts op.encode).length := by
      rw [encodeRecord, List.length_append, length_leBytes]
      omega
    obtain ⟨fault, snapshotFault⟩ := faults
    cases fault with
    | none => exact hnothing.elim
    | crashBefore => cases hcompletes
    | failBefore => cases hcompletes
    | crash written =>
        have hwritten := of_decide_eq_true hcompletes
        rw [show written = 0 from hnothing] at hwritten
        omega
    | fail written =>
        have hwritten := of_decide_eq_true hcompletes
        rw [show written = 0 from hnothing] at hwritten
        omega
  · rw [hnone happend] at hfault
    rcases hfault with hfault | hfault <;> cases hfault

theorem Keeps.failsAtomically (hkeeps : history.Keeps (.deliver faults ts op))
    (hengine : history.engine = some engine) :
    engine.FailsAtomically history.disk faults ts op := by
  intro herr
  obtain ⟨hwhole, -, hdisk⟩ := hkeeps.appended_of_err hengine herr
  rw [hdisk]
  exact .inl (Disk.Holds.of_append hwhole ⟨hkeeps.2.1.1, hkeeps.2.2.1⟩)

/-- What has been appended stays appended. -/
theorem appended_step (history : History S) (event : Event) :
    history.appended <+: (history.step event).appended := by
  cases event with
  | deliver faults ts op =>
      rw [History.step]
      cases history.engine with
      | none => exact List.prefix_rfl
      | some engine =>
          have hlogged : history.appended <+: history.logged engine faults ts op := by
            rw [logged]
            split
            · exact List.prefix_append _ _
            · exact List.prefix_rfl
          simp only [History.deliver]
          generalize engine.deliver faults history.disk ts op = result
          obtain ⟨outcome, after, disk⟩ := result
          cases outcome <;> exact hlogged
  | snapshot fault =>
      rw [History.step]
      cases history.engine with
      | none => exact List.prefix_rfl
      | some engine =>
          simp only [History.snapshot]
          generalize engine.snapshot fault history.disk = result
          obtain ⟨outcome, after, disk⟩ := result
          cases outcome <;> exact List.prefix_rfl
  | crash => exact List.prefix_rfl
  | recover interval => exact List.prefix_rfl

theorem appended_run (history : History S) (events : List Event) :
    history.appended <+: (Run.run step history events).appended := by
  induction events generalizing history with
  | nil => exact List.prefix_rfl
  | cons event events ih => exact (appended_step history event).trans (ih _)

variable [LawfulStateMachine S]

omit [LawfulStateMachine S] in
theorem Coherent.deliver_of_err (hcoherent : history.Coherent)
    (hkeeps : history.Keeps (.deliver faults ts op)) (hengine : history.engine = some engine)
    (herr : (engine.deliver faults history.disk ts op).1 = .err) :
    (history.deliver engine faults ts op).Coherent := by
  obtain ⟨hwhole, hcompletes, hdisk⟩ := hkeeps.appended_of_err hengine herr
  have hop : op.Loggable := ⟨hkeeps.2.1.1, hkeeps.2.2.1⟩
  have hfresh := fresh_of_err herr
  have hafter := @deliver_toCore S _ engine history.disk faults ts op
  have hnext : (dedup S).deliver engine.toCore (ts, op)
      = serial S (history.appended ++ [(ts, op)]) := by
    rw [serial_concat, hcoherent.live engine hengine]
  have hbounded := hkeeps.2.1.2 engine hengine
  rw [snd_applyDedup, hnext] at hbounded
  rw [History.deliver, logged_of_fresh hfresh, if_pos hcompletes]
  generalize engine.deliver faults history.disk ts op = result at herr hdisk hafter
  obtain ⟨outcome, after, disk⟩ := result
  obtain rfl : outcome = .err := herr
  obtain rfl : disk = _ := hdisk
  refine ⟨?_, ?_, ?_, hbounded⟩
  · exact (recovered_append S hwhole ts hop).trans (by rw [hcoherent.recovered, serial_concat])
  · rintro engine ⟨⟩
    exact hafter.trans hnext
  · intro record hrecord
    rcases List.mem_append.mp hrecord with hold | hnew
    · exact hcoherent.fits record hold
    · rw [List.mem_singleton.mp hnew]
      exact hop.1

/-- The step lemma, with I/O errors among the steps. -/
theorem Coherent.step_of_keeps (hcoherent : history.Coherent) {event : Event}
    (hkeeps : history.Keeps event) : (history.step event).Coherent := by
  cases event with
  | deliver faults ts op =>
      rw [History.step]
      cases hengine : history.engine with
      | none => exact hcoherent
      | some engine =>
          by_cases herr : (engine.deliver faults history.disk ts op).1 = .err
          · exact hcoherent.deliver_of_err hkeeps hengine herr
          · obtain ⟨clean, hsound, hsame⟩ := exists_sound hengine hkeeps herr
            have hnext := hcoherent.step hsound
            rw [History.step, hengine] at hnext
            simp only at hnext ⊢
            rwa [hsame]
  | snapshot fault =>
      rw [History.step]
      cases hengine : history.engine with
      | none => exact hcoherent
      | some engine => exact hcoherent.snapshot hengine fault
  | crash => exact { hcoherent with live := by rintro engine ⟨⟩ }
  | recover interval =>
      refine { hcoherent with live := ?_ }
      rintro engine ⟨⟩
      exact (recover_toCore _ _).trans hcoherent.recovered

theorem coherent_of_keeps {interval : UInt64} {events : List Event}
    (hkeeps : Run.Guarded step Keeps (start interval : History S) events) :
    (Run.run step (start interval : History S) events).Coherent :=
  Run.invariant_run Coherent (fun _ _ hkeeps hcoherent => hcoherent.step_of_keeps hkeeps) hkeeps
    (coherent_start S interval)

/-- A call that has returned has its op among the appended ones, or found it covered by them. -/
theorem Coherent.covers (hcoherent : history.Coherent)
    (hkeeps : history.Keeps (.deliver faults ts op)) (hengine : history.engine = some engine)
    (hreturned : (engine.deliver faults history.disk ts op).1 ≠ .crash) :
    let next := history.step (.deliver faults ts op)
    ¬ (dedup S).fresh (serial S next.appended) (ts, op)
      ∧ ((dedup S).fresh engine.toCore (ts, op) → (ts, op) ∈ next.appended) := by
  have hnext := hcoherent.step_of_keeps hkeeps
  have hafter := @deliver_toCore S _ engine history.disk faults ts op
  have hstep : history.step (.deliver faults ts op) = history.deliver engine faults ts op := by
    rw [History.step, hengine]
  have happended : (history.deliver engine faults ts op).appended
        = history.logged engine faults ts op
      ∧ (history.deliver engine faults ts op).engine
        = some (engine.deliver faults history.disk ts op).2.1 := by
    rw [History.deliver]
    generalize engine.deliver faults history.disk ts op = result at hreturned
    obtain ⟨outcome, after, disk⟩ := result
    cases outcome with
    | ok out => exact ⟨rfl, rfl⟩
    | err => exact ⟨rfl, rfl⟩
    | crash => exact absurd rfl hreturned
  rw [hstep] at hnext
  have hcovered : ¬ (dedup S).fresh (serial S (history.logged engine faults ts op)) (ts, op) := by
    rw [← happended.1, ← hnext.live _ happended.2, hafter]
    exact Journal.Machine.not_fresh_deliver_self
  simp only [hstep, happended.1]
  refine ⟨hcovered, fun hfresh => ?_⟩
  rw [logged_of_fresh hfresh] at hcovered ⊢
  split at hcovered
  · rename_i hcompletes
    rw [if_pos hcompletes]
    exact List.mem_append_right _ List.mem_cons_self
  · rw [hcoherent.live engine hengine] at hfresh
    exact absurd hfresh hcovered

/-- **Failed deliveries.** Behind a whole log, a call that returns an error is atomic exactly when it
is not the append of a new op failing short. In a run without such a call every op whose delivery
returns, with an error or not, is in what the directory recovers to at the end. -/
theorem failed_delivery_kept {interval : UInt64} {events : List Event}
    (hkeeps : Run.Guarded step Keeps (start interval : History KvStore) events) :
    (∀ (engine : Engine KvStore) (disk : Disk) (faults : Faults) (ts : UInt64) (op : Op),
      tornTail disk = [] → op.Loggable →
      ((dedup KvStore).fresh engine.toCore (ts, op) →
        (dedup KvStore).fresh (disk.recovered KvStore) (ts, op)) →
      (engine.FailsAtomically disk faults ts op ↔ ¬ engine.LosesRecord faults ts op))
    ∧ ∀ before faults ts op later, events = before ++ .deliver faults ts op :: later →
      let history := Run.run step (start interval : History KvStore) before
      let final := Run.run step (start interval : History KvStore) events
      ∀ engine ∈ history.engine,
        engine.FailsAtomically history.disk faults ts op
        ∧ ((engine.deliver faults history.disk ts op).1 ≠ .crash → ∀ next : UInt64,
          let recovered : Engine KvStore := Engine.recover final.disk next
          recovered.toCore = serial KvStore final.appended
            ∧ op.seq ≤ recovered.highWater op.client
            ∧ ((dedup KvStore).fresh engine.toCore (ts, op) → (ts, op) ∈ final.appended)) := by
  refine ⟨fun engine disk faults ts op hwhole hop hnew => failsAtomically_iff hwhole hop hnew, ?_⟩
  rintro before faults ts op later rfl history final engine hengine
  obtain ⟨hbefore, hhere, -⟩ := (Run.guarded_append _).mp hkeeps
  refine ⟨hhere.failsAtomically hengine, fun hreturned next => ?_⟩
  obtain ⟨hcovered, hmem⟩ := (coherent_of_keeps hbefore).covers hhere hengine hreturned
  obtain ⟨more, hmore⟩ := appended_run (history.step (.deliver faults ts op)) later
  have hfinal : final = Run.run step (history.step (.deliver faults ts op)) later :=
    Run.run_append _
  have hrecovered : (Engine.recover final.disk next : Engine KvStore).toCore
      = serial KvStore final.appended :=
    (recover_toCore _ _).trans (coherent_of_keeps hkeeps).recovered
  refine ⟨hrecovered, ?_, fun hfresh => ?_⟩
  · rw [hrecovered, hfinal, ← hmore, serial, Journal.Machine.deliverAll_append]
    exact UInt64.not_lt.mp (Journal.Machine.not_fresh_deliverAll hcovered)
  · rw [hfinal, ← hmore]
    exact List.mem_append_left _ (hmem hfresh)

theorem failed_delivery_kept_snapshot_fails :
    let events := [Event.deliver Faults.clean 5 ⟨1, 1, .incr "k" 7⟩,
      .deliver ⟨.none, .failBefore⟩ 6 ⟨1, 2, .set "k" [65]⟩,
      .deliver Faults.clean 6 ⟨1, 2, .set "k" [65]⟩]
    let history := Run.run step (start 2 : History KvStore) (events.take 1)
    let final := Run.run step (start 2 : History KvStore) events
    (∃ engine ∈ history.engine, (engine.deliver ⟨.none, .failBefore⟩ history.disk 6
        ⟨1, 2, .set "k" [65]⟩).1 = .err ∧ (6, ⟨1, 2, .set "k" [65]⟩) ∈ final.appended)
      ∧ (2 : UInt64) ≤ (Engine.recover final.disk 2 : Engine KvStore).highWater 1
      ∧ (Engine.create 2 : Engine KvStore).FailsAtomically Disk.empty ⟨.fail 100, .none⟩ 5
        ⟨1, 1, .incr "k" 7⟩ := by
  intro events history final
  have hkept := failed_delivery_kept
    (by decide +kernel : Run.Guarded step Keeps (start 2 : History KvStore) events)
  have hlive : history.engine.isSome = true := by decide +kernel
  obtain ⟨engine, hengine⟩ := Option.isSome_iff_exists.mp hlive
  have herr : ∀ engine ∈ history.engine, (engine.deliver ⟨.none, .failBefore⟩ history.disk 6
      ⟨1, 2, .set "k" [65]⟩).1 = .err ∧ (dedup KvStore).fresh engine.toCore
        (6, ⟨1, 2, .set "k" [65]⟩) := by decide +kernel
  obtain ⟨herr, hfresh⟩ := herr engine hengine
  have hreturned : (engine.deliver ⟨.none, .failBefore⟩ history.disk 6
      ⟨1, 2, .set "k" [65]⟩).1 ≠ .crash := by
    rw [herr]
    decide
  obtain ⟨-, hcovered, hmem⟩ :=
    (hkept.2 (events.take 1) _ _ _ (events.drop 2) rfl engine hengine).2 hreturned 2
  refine ⟨⟨engine, hengine, herr, hmem hfresh⟩, hcovered, ?_⟩
  exact (hkept.1 _ _ _ _ _ rfl (by decide +kernel) (fun _ => by decide +kernel)).mpr
    (by decide +kernel)

/-- Three bytes of the record are written. The retry is suppressed, and neither that op nor one
acknowledged behind it is recovered. -/
theorem partial_append_loses :
    let faults : Faults := { append := .fail 3, snapshot := .none }
    let first := (Engine.create 100 : Engine KvStore).deliver faults Disk.empty 5
      ⟨1, 1, .incr "a" 7⟩
    let retry := first.2.1.deliver Faults.clean first.2.2 5 ⟨1, 1, .incr "a" 7⟩
    let later := retry.2.1.deliver Faults.clean retry.2.2 6 ⟨2, 1, .set "b" [65]⟩
    let recovered : Engine KvStore := Engine.recover later.2.2 100
    ¬ (Engine.create 100 : Engine KvStore).FailsAtomically Disk.empty faults 5 ⟨1, 1, .incr "a" 7⟩
      ∧ first.1 = .err ∧ retry.1 = .ok .suppressed ∧ later.1 = .ok .ok
      ∧ recovered.highWater 1 = 0 ∧ recovered.highWater 2 = 0 := by
  refine ⟨fun hatomic => ?_, by decide +kernel⟩
  exact (failsAtomically_iff rfl (by decide +kernel) (fun _ => by decide +kernel)).mp hatomic
    (by decide +kernel)

end History

end OneBarrier
