import OneBarrier.Proof.Coherence

/-!
# How much a recovery replays

A live engine has counted every logged record its snapshot does not cover, so at most an interval of
them wait for the next snapshot. `recover` restores the count only up to whole intervals. A process
that dies between the record that completes an interval and the snapshot behind it therefore leaves
a full interval in the log that the next engine does not count.
-/

namespace OneBarrier

open Wire Durable LawfulStateMachine

variable {S : Type} [StateMachine S]

/-- The log records that the snapshot does not cover. -/
def Disk.pending (S : Type) [StateMachine S] (disk : Disk) : Nat :=
  (disk.store S).pending (dedup S)

/-- `recover` counts the records it replays. -/
theorem recover_replayed (disk : Disk) (interval : UInt64) :
    (Engine.recover disk interval : Engine S).stats.replayed = UInt64.ofNat (disk.pending S) := by
  have hfold : ∀ (log : List (UInt64 × Bytes)) (progress : Core S × UInt64),
      (log.foldl Core.replayRecord progress).2
        = progress.2 + UInt64.ofNat ((dedup S).taken progress.1
          (log.filterMap fun record => (Op.decode record.2).map (record.1, ·))) := by
    intro log
    induction log with
    | nil => exact fun progress => (UInt64.add_zero _).symm
    | cons record log ih =>
        intro progress
        rw [List.foldl_cons, ih, Core.replayRecord]
        cases hdecode : Op.decode record.2 with
        | none => simp [hdecode]
        | some op =>
            simp only [List.filterMap_cons, hdecode, Option.map_some, Journal.Machine.taken]
            by_cases hfresh : (dedup S).fresh progress.1 (record.1, op)
            · rw [applyDedup_of_fresh hfresh, if_pos hfresh,
                Journal.Machine.deliver_of_fresh hfresh, UInt64.ofNat_add, UInt64.add_assoc]
              rfl
            · rw [applyDedup_of_not_fresh hfresh, if_neg hfresh,
                Journal.Machine.deliver_of_not_fresh hfresh, Nat.zero_add]
  exact (hfold _ _).trans (UInt64.zero_add _)

/-! ### One call -/

/-- The process dies with the whole record in the log and the snapshot behind it not in place. -/
def Faults.Strands (faults : Faults) (record : Bytes) : Prop :=
  match faults.append with
  | .none => faults.snapshot = .crashBefore
  | .crash written => record.length ≤ written
  | .crashBefore | .failBefore | .fail _ => False

instance : (faults : Faults) → (record : Bytes) → Decidable (faults.Strands record)
  | ⟨.none, snapshot⟩, _ => inferInstanceAs (Decidable (snapshot = .crashBefore))
  | ⟨.crash written, _⟩, record => inferInstanceAs (Decidable (record.length ≤ written))
  | ⟨.crashBefore, _⟩, _ | ⟨.failBefore, _⟩, _ | ⟨.fail _, _⟩, _ =>
      inferInstanceAs (Decidable False)

/-- The record that is stranded is the one that completes the interval. -/
def Engine.StrandsInterval (engine : Engine S) (faults : Faults) (ts : UInt64) (op : Op) : Prop :=
  (dedup S).fresh engine.toCore (ts, op) ∧ engine.snapInterval ≤ engine.opsSinceSnap + 1
    ∧ faults.Strands (encodeRecord ts op.encode)

instance (engine : Engine S) (faults : Faults) (ts : UInt64) (op : Op) :
    Decidable (engine.StrandsInterval faults ts op) := inferInstanceAs (Decidable (_ ∧ _))

/-- The engine has counted what its directory holds behind the snapshot, and the next snapshot is
not due. -/
structure Engine.Paced (engine : Engine S) (interval : UInt64) (disk : Disk) : Prop where
  fixed : engine.snapInterval = interval
  counted : disk.pending S ≤ engine.opsSinceSnap.toNat
  room : engine.opsSinceSnap < interval

variable {engine : Engine S} {disk : Disk} {faults : Faults} {ts : UInt64} {op : Op}
  {interval : UInt64}

theorem Engine.Paced.pending_lt (hpaced : engine.Paced interval disk) :
    disk.pending S < interval.toNat :=
  Nat.lt_of_le_of_lt hpaced.counted hpaced.room

theorem Engine.Paced.toNat_succ (hpaced : engine.Paced interval disk) :
    (engine.opsSinceSnap + 1).toNat = engine.opsSinceSnap.toNat + 1 := by
  have hroom : engine.opsSinceSnap.toNat < interval.toNat := hpaced.room
  have hword := interval.toNat_lt
  rw [UInt64.toNat_add]
  exact Nat.mod_eq_of_lt (by simp only [UInt64.toNat_one]; omega)

theorem pending_append (hwhole : tornTail disk = []) (hop : op.Loggable)
    (hfresh : (dedup S).fresh (disk.recovered S) (ts, op)) :
    { disk with oplog := some (disk.oplog.getD [] ++ encodeRecord ts op.encode) }.pending S
      = disk.pending S + 1 := by
  rw [Disk.pending, (store_append S hwhole ts hop).1]
  exact Journal.Store.pending_append hfresh

variable [LawfulStateMachine S]

/-- A snapshot that is renamed into place leaves nothing to replay. -/
theorem pending_writeSnapshot {core : Core S} (hencodable : Encodable core.state)
    (hfits : core.Fits) (hrecovered : disk.recovered S = core) {fault : SnapshotFault}
    (hcrash : fault ≠ .crashBefore) (hfail : fault ≠ .failBefore) :
    (writeSnapshot fault disk core.encodeSnapshot).2.pending S = 0 := by
  have hrenamed : { disk with snapshot := some core.encodeSnapshot }.pending S = 0 := by
    rw [Disk.pending, store_rename hencodable hfits, ← hrecovered]
    exact Journal.Store.pending_install
  have hremoved : { disk with snapshot := some core.encodeSnapshot, oplog := none }.pending S
      = 0 := by
    rw [Disk.pending, store_rename hencodable hfits { disk with oplog := none }]
    rfl
  cases fault with
  | none => exact hremoved
  | crashBefore => exact absurd rfl hcrash
  | failBefore => exact absurd rfl hfail
  | crashRenamed => exact hrenamed
  | keepLog => exact hrenamed
  | crashAfter => exact hremoved

theorem snapshot_paced (hencodable : Encodable engine.state) (hfits : engine.toCore.Fits)
    (hlive : disk.recovered S = engine.toCore) (hpositive : 0 < interval)
    (hfixed : engine.snapInterval = interval) {fault : SnapshotFault}
    (hcrash : fault ≠ .crashBefore) (hfail : fault ≠ .failBefore) :
    (engine.snapshot fault disk).2.2.pending S = 0
      ∧ ((engine.snapshot fault disk).1 ≠ .crash →
        (engine.snapshot fault disk).2.1.Paced interval (engine.snapshot fault disk).2.2) := by
  have hpending := pending_writeSnapshot hencodable hfits hlive hcrash hfail
  rw [← snapshot_disk] at hpending
  refine ⟨hpending, fun hreturned => ⟨?_, hpending ▸ Nat.zero_le _, ?_⟩⟩
  · rw [Engine.snapshot]
    split <;> exact hfixed
  · cases fault with
    | none => exact hpositive
    | keepLog => exact hpositive
    | crashBefore => exact absurd rfl hcrash
    | failBefore => exact absurd rfl hfail
    | crashRenamed => exact absurd rfl hreturned
    | crashAfter => exact absurd rfl hreturned

theorem snapshotIfDue_paced (hencodable : Encodable engine.state) (hfits : engine.toCore.Fits)
    (hlive : disk.recovered S = engine.toCore) (hfixed : engine.snapInterval = interval)
    (hcounted : disk.pending S ≤ engine.opsSinceSnap.toNat) (hpositive : 0 < interval)
    {fault : SnapshotFault} (hcut : fault ≠ .crashBefore ∨ ¬ interval ≤ engine.opsSinceSnap)
    (hfail : fault ≠ .failBefore) {out : Output} :
    let result := engine.snapshotIfDue fault disk out
    result.2.2.pending S < interval.toNat
      ∧ (result.1 ≠ .crash → result.2.1.Paced interval result.2.2) := by
  by_cases hdue : interval ≤ engine.opsSinceSnap
  · have hcut := snapshot_paced hencodable hfits hlive hpositive hfixed
      (hcut.resolve_right (not_not.mpr hdue)) hfail
    have hzero : 0 < interval.toNat := hpositive
    rw [Engine.snapshotIfDue, hfixed, if_pos hdue]
    generalize engine.snapshot fault disk = result at hcut
    obtain ⟨outcome, after, disk⟩ := result
    obtain ⟨hpending, hafter⟩ := hcut
    have hbound : disk.pending S < interval.toNat := hpending ▸ hzero
    cases outcome with
    | ok => exact ⟨hbound, fun _ => hafter (by rintro ⟨⟩)⟩
    | err => exact ⟨hbound, fun _ => hafter (by rintro ⟨⟩)⟩
    | crash => exact ⟨hbound, fun hreturned => absurd rfl hreturned⟩
  · have hpaced : engine.Paced interval disk := ⟨hfixed, hcounted, UInt64.not_le.mp hdue⟩
    rw [snapshotIfDue_of_not_due (hfixed ▸ hdue)]
    exact ⟨hpaced.pending_lt, fun _ => hpaced⟩

/-- **One delivery** that strands no interval keeps the pace, and so does the directory if the process
dies in it. -/
theorem deliver_paced (hlive : disk.recovered S = engine.toCore) (hwhole : tornTail disk = [])
    (hencodable : Encodable ((dedup S).deliver engine.toCore (ts, op)).state)
    (hfits : ((dedup S).deliver engine.toCore (ts, op)).Fits) (hop : op.Loggable)
    (hatomic : faults.append.IsAtomic (encodeRecord ts op.encode))
    (hsnapshot : faults.snapshot ≠ .failBefore) (hpaced : engine.Paced interval disk)
    (hstrands : ¬ engine.StrandsInterval faults ts op) :
    let result := engine.deliver faults disk ts op
    result.2.2.pending S < interval.toNat
      ∧ (result.1 ≠ .crash → result.2.1.Paced interval result.2.2) := by
  by_cases hfresh : (dedup S).fresh engine.toCore (ts, op)
  · have hlogged := pending_append hwhole hop (hlive ▸ hfresh)
    have happended := recovered_append S hwhole ts hop
    have hcounted := hpaced.counted
    have hroom : engine.opsSinceSnap.toNat < interval.toNat := hpaced.room
    have hsucc := hpaced.toNat_succ
    rw [hlive] at happended
    rw [Journal.Machine.deliver_of_fresh hfresh] at hencodable hfits happended
    have hdue : ¬ faults.Strands (encodeRecord ts op.encode)
        ∨ ¬ interval ≤ engine.opsSinceSnap + 1 := by
      by_contra hboth
      obtain ⟨hstranded, hdue⟩ := not_or.mp hboth
      exact hstrands ⟨hfresh, hpaced.fixed ▸ not_not.mp hdue, not_not.mp hstranded⟩
    rw [deliver_of_fresh hfresh]
    obtain ⟨fault, snapshotFault⟩ := faults
    cases fault with
    | none =>
        let next := { engine.taken ts op with opsSinceSnap := engine.opsSinceSnap + 1 }
        refine @snapshotIfDue_paced S _ next _ interval _ hencodable hfits happended hpaced.fixed ?_
          (UInt64.lt_of_le_of_lt UInt64.zero_le hpaced.room) snapshotFault hdue hsnapshot _
        rw [hlogged]
        exact hsucc ▸ Nat.succ_le_succ hcounted
    | crashBefore => exact ⟨hpaced.pending_lt, fun hreturned => absurd rfl hreturned⟩
    | failBefore => exact hatomic.elim
    | fail written => exact hatomic.elim
    | crash written =>
        refine ⟨?_, fun hreturned => absurd rfl hreturned⟩
        rcases hatomic with rfl | hwritten
        · have hlong : 0 < (encodeRecord ts op.encode).length := by
            rw [encodeRecord, List.length_append, length_leBytes]
            omega
          rw [Disk.pending, append, (store_append_take S hwhole ts hop hlong).1]
          exact hpaced.pending_lt
        · have hinterval := hdue.resolve_left (not_not.mpr hwritten)
          have hless : (engine.opsSinceSnap + 1).toNat < interval.toNat :=
            UInt64.not_le.mp hinterval
          simp only [append, List.take_of_length_le hwritten]
          rw [hlogged]
          omega
  · rw [deliver_of_not_fresh hfresh]
    exact ⟨hpaced.pending_lt, fun _ => ⟨hpaced.fixed, hpaced.counted, hpaced.room⟩⟩

/-! ### Runs with one interval -/

def Event.RecoversAt (interval : UInt64) : Event → Prop
  | .recover next => next = interval
  | .deliver .. | .snapshot _ | .crash => True

instance (interval : UInt64) : (event : Event) → Decidable (event.RecoversAt interval)
  | .recover next => inferInstanceAs (Decidable (next = interval))
  | .deliver .. | .snapshot _ | .crash => inferInstanceAs (Decidable True)

namespace History

def StrandsInterval (history : History S) : Event → Prop
  | .deliver faults ts op => ∃ engine ∈ history.engine, engine.StrandsInterval faults ts op
  | .snapshot _ | .crash | .recover _ => False

instance (history : History S) : (event : Event) → Decidable (history.StrandsInterval event)
  | .deliver faults ts op => inferInstanceAs (Decidable
      (∃ engine ∈ history.engine, engine.StrandsInterval faults ts op))
  | .snapshot _ | .crash | .recover _ => inferInstanceAs (Decidable False)

/-- An atomic step of a run that recovers at the interval it was created with, in which no process
dies between the record that completes an interval and its snapshot. -/
def Covered (interval : UInt64) (history : History S) (event : Event) : Prop :=
  history.Atomic event ∧ event.RecoversAt interval ∧ ¬ history.StrandsInterval event

instance (interval : UInt64) (history : History S) (event : Event) :
    Decidable (history.Covered interval event) := inferInstanceAs (Decidable (_ ∧ _))

/-- What a covered run keeps. -/
structure Paced (interval : UInt64) (history : History S) : Prop where
  coherent : history.Coherent
  whole : tornTail history.disk = []
  pending : history.disk.pending S < interval.toNat
  live : ∀ engine ∈ history.engine, engine.Paced interval history.disk

variable {history : History S}

theorem Paced.deliver (hpaced : history.Paced interval)
    (hcovered : history.Covered interval (.deliver faults ts op))
    (hengine : history.engine = some engine) :
    (history.deliver engine faults ts op).disk.pending S < interval.toNat
      ∧ ∀ after ∈ (history.deliver engine faults ts op).engine,
        after.Paced interval (history.deliver engine faults ts op).disk := by
  obtain ⟨⟨hatomic, ⟨hop, hbounded⟩, hrecord⟩, -, hstrands⟩ := hcovered
  have hcoherent := hpaced.coherent
  have hcore := hcoherent.live engine hengine
  have hnext : (dedup S).deliver engine.toCore (ts, op)
      = serial S (history.appended ++ [(ts, op)]) := by rw [serial_concat, hcore]
  have hencodable : Encodable ((dedup S).deliver engine.toCore (ts, op)).state := by
    rw [hnext]
    refine encodable_serial fun record hrecord => ?_
    rcases List.mem_append.mp hrecord with hold | hnew
    · exact hcoherent.fits record hold
    · rwa [List.mem_singleton.mp hnew]
  have hfits : ((dedup S).deliver engine.toCore (ts, op)).Fits := by
    rw [← snd_applyDedup]
    exact hbounded engine hengine
  have hcall := deliver_paced (by rw [hcoherent.recovered, hcore]) hpaced.whole hencodable hfits
    ⟨hop, hrecord⟩ hatomic.1 hatomic.2 (hpaced.live engine hengine)
    (fun hstranded => hstrands ⟨engine, hengine, hstranded⟩)
  rw [History.deliver]
  generalize engine.deliver faults history.disk ts op = result at hcall
  obtain ⟨outcome, after, disk⟩ := result
  obtain ⟨hpending, hafter⟩ := hcall
  cases outcome with
  | ok out => exact ⟨hpending, by rintro _ ⟨⟩; exact hafter (by rintro ⟨⟩)⟩
  | err => exact ⟨hpending, by rintro _ ⟨⟩; exact hafter (by rintro ⟨⟩)⟩
  | crash => exact ⟨hpending, by rintro _ ⟨⟩⟩

theorem Paced.snapshot (hpaced : history.Paced interval) (hengine : history.engine = some engine)
    {fault : SnapshotFault} (hfail : fault ≠ .failBefore) :
    (history.snapshot engine fault).disk.pending S < interval.toNat
      ∧ ∀ after ∈ (history.snapshot engine fault).engine,
        after.Paced interval (history.snapshot engine fault).disk := by
  have hcoherent := hpaced.coherent
  have hcore := hcoherent.live engine hengine
  have hlive := hpaced.live engine hengine
  by_cases hcrash : fault = .crashBefore
  · subst hcrash
    exact ⟨hpaced.pending, by rintro _ ⟨⟩⟩
  · have hcut := @snapshot_paced S _ engine history.disk interval _
      (hcore ▸ encodable_serial hcoherent.fits) (hcore ▸ hcoherent.bounded)
      (by rw [hcoherent.recovered, hcore]) (UInt64.lt_of_le_of_lt UInt64.zero_le hlive.room)
      hlive.fixed fault hcrash hfail
    have hzero : 0 < interval.toNat := Nat.zero_lt_of_lt hpaced.pending
    rw [History.snapshot]
    generalize engine.snapshot fault history.disk = result at hcut
    obtain ⟨outcome, after, disk⟩ := result
    obtain ⟨hpending, hafter⟩ := hcut
    have hbound : disk.pending S < interval.toNat := hpending ▸ hzero
    cases outcome with
    | ok => exact ⟨hbound, by rintro _ ⟨⟩; exact hafter (by rintro ⟨⟩)⟩
    | err => exact ⟨hbound, by rintro _ ⟨⟩; exact hafter (by rintro ⟨⟩)⟩
    | crash => exact ⟨hbound, by rintro _ ⟨⟩⟩

theorem max_interval (hinterval : 1 ≤ interval) : max interval 1 = interval := by
  change (if interval ≤ 1 then 1 else interval) = interval
  split
  · rename_i hone
    exact UInt64.le_antisymm hinterval hone
  · rfl

omit [LawfulStateMachine S] in
/-- A recovered engine counts all of what it has replayed, when that is less than an interval. -/
theorem recover_paced (hpending : disk.pending S < interval.toNat) :
    (Engine.recover disk interval : Engine S).Paced interval disk := by
  have hreplayed := @recover_replayed S _ disk interval
  have hpositive : (1 : UInt64) ≤ interval := Nat.lt_of_le_of_lt (Nat.zero_le _) hpending
  have hfixed : (Engine.recover disk interval : Engine S).snapInterval = interval :=
    max_interval hpositive
  have hword : (UInt64.ofNat (disk.pending S)).toNat = disk.pending S :=
    UInt64.toNat_ofNat_of_lt' (hpending.trans interval.toNat_lt)
  have hcount : (Engine.recover disk interval : Engine S).opsSinceSnap
      = UInt64.ofNat (disk.pending S) := by
    calc (Engine.recover disk interval : Engine S).opsSinceSnap
        = (Engine.recover disk interval : Engine S).stats.replayed % max interval 1 := rfl
      _ = UInt64.ofNat (disk.pending S) % interval := by
        rw [hreplayed, max_interval hpositive]
      _ = UInt64.ofNat (disk.pending S) := by
        apply UInt64.toNat_inj.mp
        rw [UInt64.toNat_mod, hword]
        exact Nat.mod_eq_of_lt hpending
  refine ⟨hfixed, ?_, ?_⟩
  · rw [hcount, hword]
  · rw [hcount, UInt64.lt_iff_toNat_lt, hword]
    exact hpending

/-- The step lemma. -/
theorem Paced.step (hpaced : history.Paced interval) {event : Event}
    (hcovered : history.Covered interval event) : (history.step event).Paced interval := by
  have hcoherent := hpaced.coherent.step (hcovered.1.sound hpaced.whole)
  have hwhole := tornTail_step hpaced.whole hcovered.1.1 hcovered.1.2.1 hcovered.1.2.2
  suffices h : (history.step event).disk.pending S < interval.toNat
      ∧ ∀ after ∈ (history.step event).engine, after.Paced interval (history.step event).disk from
    ⟨hcoherent, hwhole, h.1, h.2⟩
  cases event with
  | deliver faults ts op =>
      rw [History.step]
      cases hengine : history.engine with
      | none => exact ⟨hpaced.pending, hpaced.live⟩
      | some engine => exact hpaced.deliver hcovered hengine
  | snapshot fault =>
      rw [History.step]
      cases hengine : history.engine with
      | none => exact ⟨hpaced.pending, hpaced.live⟩
      | some engine => exact hpaced.snapshot hengine hcovered.1.1
  | crash => exact ⟨hpaced.pending, by rintro _ ⟨⟩⟩
  | recover next =>
      obtain rfl : next = interval := hcovered.2.1
      exact ⟨hpaced.pending, by rintro _ ⟨⟩; exact recover_paced hpaced.pending⟩

theorem paced_start (hinterval : 1 ≤ interval) :
    (start interval : History S).Paced interval := by
  refine ⟨coherent_start S interval, rfl, hinterval, ?_⟩
  rintro _ ⟨⟩
  exact ⟨max_interval hinterval, Nat.le_refl 0, hinterval⟩

/-- **Replay is bounded** in every run whose steps strand no interval: whatever state it reaches, a
recovery there re-applies at most `interval` records. -/
theorem replayed_le_interval {events : List Event} (hinterval : 1 ≤ interval)
    (hcovered : Run.Guarded step (Covered interval) (start interval : History KvStore) events) :
    let history := Run.run step (start interval : History KvStore) events
    (Engine.recover history.disk interval : Engine KvStore).stats.replayed ≤ interval := by
  intro history
  have hpaced : history.Paced interval :=
    Run.invariant_run (Paced interval) (fun _ _ hcovered hpaced => hpaced.step hcovered) hcovered
      (paced_start hinterval)
  have hword : (UInt64.ofNat (history.disk.pending KvStore)).toNat
      = history.disk.pending KvStore :=
    UInt64.toNat_ofNat_of_lt' (hpaced.pending.trans interval.toNat_lt)
  rw [recover_replayed]
  exact UInt64.le_iff_toNat_le.mpr (hword.symm ▸ hpaced.pending.le)

theorem replayed_le_interval_one_crash :
    let events := [Event.deliver Faults.clean 5 ⟨1, 1, .incr "k" 7⟩,
      .deliver ⟨.crash 100, .none⟩ 6 ⟨1, 2, .incr "k" 7⟩, .recover 3]
    let history := Run.run step (start 3 : History KvStore) events
    (Engine.recover history.disk 3 : Engine KvStore).stats.replayed = 2
      ∧ (Engine.recover history.disk 3 : Engine KvStore).stats.replayed ≤ 3 :=
  ⟨by decide +kernel, replayed_le_interval (by decide) (by decide +kernel)⟩

/-- The second op completes an interval of two, and the process dies before its snapshot. The next
engine starts a new interval behind the two records, and its first op makes them three. -/
theorem replays_three_records_at_two :
    let events := [Event.deliver Faults.clean 5 ⟨1, 1, .incr "k" 7⟩,
      .deliver ⟨.none, .crashBefore⟩ 6 ⟨1, 2, .incr "k" 7⟩, .recover 2,
      .deliver Faults.clean 7 ⟨1, 3, .incr "k" 7⟩, .crash]
    let history := Run.run step (start 2 : History KvStore) events
    Run.Guarded step (fun history event => history.Atomic event ∧ event.RecoversAt 2)
        (start 2 : History KvStore) events
      ∧ (Engine.recover history.disk 2 : Engine KvStore).stats.replayed = 3 := by
  decide +kernel

end History

end OneBarrier
