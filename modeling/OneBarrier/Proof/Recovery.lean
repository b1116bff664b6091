import OneBarrier.Engine
import OneBarrier.Lib.Journal
import OneBarrier.Proof.Log
import Mathlib.Data.List.Induction

/-!
# Recovery refines a journal

The engine's core is an exactly-once machine, and a directory denotes a journal for it: the decoded
snapshot as checkpoint and the decoded log behind it. `recover` computes what the journal recovers.
Each durable step within the codec's limits is the journal step of the same name, so what a crash
between two steps leaves behind follows from the general theory.
-/

namespace OneBarrier

open Wire Durable

variable {S : Type} [StateMachine S]

/-! ### The core as an exactly-once machine -/

theorem Core.highWater_applyDedup {core : Core S} {ts : UInt64} {op : Op} (client : UInt32)
    (hfresh : core.highWater op.client < op.seq) :
    (core.applyDedup ts op).2.highWater client
      = if op.client = client then op.seq else core.highWater client := by
  rw [Core.applyDedup, if_neg (UInt64.not_le.mpr hfresh), Core.highWater, Core.highWater,
    Std.ExtTreeMap.getElem?_insert]
  simp only [Std.LawfulEqCmp.compare_eq_iff_eq]
  split <;> rfl

/-- The dedup of the engine, as an exactly-once machine over records. -/
def dedup (S : Type) [StateMachine S] : Journal.Machine (Core S) Record Output where
  fresh core record := core.highWater record.2.client < record.2.seq
  decidableFresh _ _ := inferInstance
  apply core record := (core.applyDedup record.1 record.2).2
  output core record := (StateMachine.apply core.state record.2).2
  not_fresh_apply_self := by
    intro core record hfresh
    rw [Core.highWater_applyDedup _ hfresh, if_pos rfl]
    exact UInt64.lt_irrefl _
  not_fresh_apply := by
    intro core record other hfresh hcovered
    rw [Core.highWater_applyDedup _ hfresh]
    split
    · rename_i hsame
      rw [← hsame] at hcovered
      exact fun hlt => hcovered (UInt64.lt_trans hfresh hlt)
    · exact hcovered

theorem applyDedup_of_fresh {core : Core S} {ts : UInt64} {op : Op}
    (hfresh : (dedup S).fresh core (ts, op)) :
    core.applyDedup ts op
      = (some ((dedup S).output core (ts, op)), (dedup S).apply core (ts, op)) := by
  have hlt : ¬ op.seq ≤ core.highWater op.client := UInt64.not_le.mpr hfresh
  simp only [dedup, Core.applyDedup, if_neg hlt]

theorem applyDedup_of_not_fresh {core : Core S} {ts : UInt64} {op : Op}
    (hcovered : ¬ (dedup S).fresh core (ts, op)) : core.applyDedup ts op = (none, core) :=
  if_pos (UInt64.not_lt.mp hcovered)

theorem snd_applyDedup (core : Core S) (ts : UInt64) (op : Op) :
    (core.applyDedup ts op).2 = (dedup S).deliver core (ts, op) := by
  by_cases hfresh : (dedup S).fresh core (ts, op)
  · rw [applyDedup_of_fresh hfresh, Journal.Machine.deliver_of_fresh hfresh]
  · rw [applyDedup_of_not_fresh hfresh, Journal.Machine.deliver_of_not_fresh hfresh]

theorem state_apply {core : Core S} {record : Record} (hfresh : (dedup S).fresh core record) :
    ((dedup S).apply core record).state = (StateMachine.apply core.state record.2).1 := by
  have hlt : ¬ record.2.seq ≤ core.highWater record.2.client := UInt64.not_le.mpr hfresh
  simp only [dedup, Core.applyDedup, if_neg hlt]

/-- What a stream of records leads to. -/
def serial (S : Type) [StateMachine S] (records : List Record) : Core S :=
  (dedup S).deliverAll Core.init records

@[simp]
theorem serial_nil : serial S [] = Core.init := rfl

theorem serial_concat (records : List Record) (record : Record) :
    serial S (records ++ [record]) = (dedup S).deliver (serial S records) record := by
  simp [serial]

/-- The serial stream is the reference the engine is measured against. -/
theorem state_serial (records : List Record) :
    (serial S records).state = referenceApply S (records.map Prod.snd) := by
  have hfold : ∀ core : Core S,
      (((dedup S).deliverAll core records).state, ((dedup S).deliverAll core records).applied)
        = (records.map Prod.snd).foldl
          (fun (progress : S × BTreeMap UInt32 UInt64) op =>
            if progress.2[op.client]?.getD 0 < op.seq then
              ((StateMachine.apply progress.1 op).1, progress.2.insert op.client op.seq)
            else progress)
          (core.state, core.applied) := by
    induction records with
    | nil => intro core; rfl
    | cons record records ih =>
        intro core
        rw [Journal.Machine.deliverAll_cons, ih, List.map_cons, List.foldl_cons]
        congr 1
        rw [← snd_applyDedup, Core.applyDedup, Core.highWater]
        by_cases hseq : record.2.seq ≤ core.applied[record.2.client]?.getD 0
        · rw [if_pos hseq, if_neg (UInt64.not_lt.mpr hseq)]
        · rw [if_neg hseq, if_pos (UInt64.not_le.mp hseq)]
  exact congrArg Prod.fst (hfold Core.init)

/-! ### A directory as a journal -/

/-- The log records that decode. -/
def Disk.records (disk : Disk) : List Record :=
  (readLog disk).filterMap fun record => (Op.decode record.2).map (record.1, ·)

/-- The journal a directory denotes. -/
def Disk.store (S : Type) [StateMachine S] (disk : Disk) : Journal.Store (Core S) Record where
  checkpoint := Engine.loaded disk
  log := disk.records

/-- The core a directory recovers to. -/
def Disk.recovered (S : Type) [StateMachine S] (disk : Disk) : Core S :=
  (disk.store S).recovered (dedup S)

/-- `recover` is the journal's recovery, for any directory contents. -/
theorem recover_toCore (disk : Disk) (interval : UInt64) :
    (Engine.recover disk interval : Engine S).toCore = disk.recovered S := by
  have hfold : ∀ (log : List (UInt64 × Bytes)) (progress : Core S × UInt64),
      (log.foldl Core.replayRecord progress).1
        = (dedup S).deliverAll progress.1
          (log.filterMap fun record => (Op.decode record.2).map (record.1, ·)) := by
    intro log
    induction log with
    | nil => intro progress; rfl
    | cons record log ih =>
        intro progress
        rw [List.foldl_cons, ih, Core.replayRecord]
        cases hdecode : Op.decode record.2 with
        | none => simp [hdecode]
        | some op =>
            simp only [List.filterMap_cons, hdecode, Option.map_some,
              Journal.Machine.deliverAll_cons]
            congr 1
            rw [← snd_applyDedup]
            by_cases hfresh : (dedup S).fresh progress.1 (record.1, op)
            · rw [applyDedup_of_fresh hfresh]
            · rw [applyDedup_of_not_fresh hfresh]
  exact hfold _ _

@[simp]
theorem recovered_empty : Disk.empty.recovered S = Core.init := rfl

/-! ### Durable steps as journal steps -/

/-- The snapshot format's limits: fewer than `2^32` clients and a body below `2^32` bytes. -/
def Core.Fits (core : Core S) : Prop :=
  core.applied.size < 2 ^ 32 ∧ (StateMachine.snapshot core.state).length < 2 ^ 32

instance (core : Core S) : Decidable core.Fits := inferInstanceAs (Decidable (_ ∧ _))

/-- An op the log can carry: its own codec's lengths and its record's length do not saturate. -/
def Op.Loggable (op : Op) : Prop := op.Fits ∧ PayloadFits op.encode

instance (op : Op) : Decidable op.Loggable := inferInstanceAs (Decidable (_ ∧ _))

theorem loadMarks_encode (marks : List (UInt32 × UInt64)) (rest : Bytes)
    (start : BTreeMap UInt32 UInt64) :
    Core.loadMarks marks.length (marks.flatMap Core.encodeMark ++ rest) start
      = (marks.foldl (fun map mark => map.insert mark.1 mark.2) start, rest) := by
  induction marks generalizing start with
  | nil => rfl
  | cons mark marks ih =>
      rw [List.length_cons, List.flatMap_cons, List.append_assoc, Core.encodeMark,
        List.append_assoc, Core.loadMarks, (u32_exact mark.1).reads]
      simp only [(u64_exact mark.2).reads, List.foldl_cons]
      exact ih _

theorem importState_toCore (fault : SnapshotFault) (engine : Engine S) (disk : Disk)
    (bytes : Bytes) :
    (engine.importState fault disk bytes).2.1.toCore = engine.loadSnapshot bytes := by
  rw [Engine.importState]
  cases fault <;> rfl

variable [LawfulStateMachine S]

open LawfulStateMachine

/-- Loading an encoded core gives it back, whatever the engine held before. -/
theorem loadSnapshot_encodeSnapshot {core : Core S} (hencodable : Encodable core.state)
    (hfits : core.Fits) (base : Core S) : base.loadSnapshot core.encodeSnapshot = core := by
  obtain ⟨hclients, hbody⟩ := hfits
  have hmarks := loadMarks_encode core.applied.toList
    (leBytes 4 (StateMachine.snapshot core.state).length ++ StateMachine.snapshot core.state) ∅
  rw [Std.ExtTreeMap.length_toList, BTreeMap.foldl_insert_toList] at hmarks
  have hstate := (bytes_exact (StateMachine.snapshot core.state)).run_self
  rw [Core.encodeSnapshot, lengthBytes_of_lt hclients, lengthBytes_of_lt hbody, Core.loadSnapshot,
    (u64_exact core.lastTs).reads]
  simp only [(u32_exact_ofNat hclients).reads, UInt32.toNat_ofNat', Nat.mod_eq_of_lt hclients,
    hmarks, (u32_exact_ofNat hbody).reads, Nat.mod_eq_of_lt hbody, hstate,
    restore_snapshot hencodable hbody]

/-- **The snapshot codec.** Whatever an engine held, and whatever becomes of writing the state it
adopts, it has the map, the marks and the horizon of the engine the state comes from. -/
theorem snapshot_adopted {engine : Engine KvStore} (hstore : engine.state.Fits)
    (hfits : engine.toCore.Fits) (other : Engine KvStore) (fault : SnapshotFault) (disk : Disk) :
    let loaded := other.loadSnapshot engine.encodeSnapshot
    let adopted := (other.importState fault disk engine.exportState).2.1
    (loaded.state.map = engine.state.map ∧ loaded.applied = engine.applied
        ∧ loaded.lastTs = engine.lastTs)
      ∧ adopted.state.map = engine.state.map ∧ adopted.applied = engine.applied
        ∧ adopted.lastTs = engine.lastTs := by
  intro loaded adopted
  have hkeys : ∀ key ∈ engine.state.map, KeyFits key := by
    intro key hkey
    obtain ⟨value, hvalue⟩ := Option.isSome_iff_exists.mp
      (Std.ExtTreeMap.mem_iff_isSome_getElem?.mp hkey)
    exact (hstore.2 (key, value) (Std.ExtTreeMap.mem_toList_iff_getElem?_eq_some.mpr hvalue)).1
  have hloaded : loaded = engine.toCore := loadSnapshot_encodeSnapshot hkeys hfits other.toCore
  have hadopted : adopted.toCore = engine.toCore := (importState_toCore _ _ _ _).trans hloaded
  rw [hloaded, hadopted]
  exact ⟨⟨rfl, rfl, rfl⟩, rfl, rfl, rfl⟩

/-- A store of one binary value and two clients, adopted by an engine that has other contents. -/
def exported : Engine KvStore :=
  { state := ⟨(∅ : BTreeMap String Bytes).insert "k" [0, 255, 10]⟩
    applied := ((∅ : BTreeMap UInt32 UInt64).insert 7 3).insert 1 9
    lastTs := 12, snapInterval := 4, opsSinceSnap := 2, stats := {} }

def adopting : Engine KvStore :=
  { exported with
    state := ⟨(∅ : BTreeMap String Bytes).insert "old" [1]⟩
    applied := (∅ : BTreeMap UInt32 UInt64).insert 5 5 }

theorem snapshot_adopted_over_contents :
    let loaded := adopting.loadSnapshot exported.encodeSnapshot
    let adopted := (adopting.importState .none Disk.empty exported.exportState).2.1
    (loaded.state.map = exported.state.map ∧ loaded.applied = exported.applied
        ∧ loaded.lastTs = exported.lastTs)
      ∧ adopted.state.map = exported.state.map ∧ adopted.applied = exported.applied
        ∧ adopted.lastTs = exported.lastTs := by
  refine snapshot_adopted ⟨by decide +kernel, ?_⟩ (by decide +kernel) _ _ _
  intro entry hentry
  obtain rfl : entry = ("k", [0, 255, 10]) := List.mem_singleton.mp hentry
  exact ⟨by decide, by decide⟩

/-- Every state the ops of a fitting stream lead to is encodable. -/
theorem encodable_serial {records : List Record} (hfits : ∀ record ∈ records, record.2.Fits) :
    Encodable (serial S records).state := by
  induction records using List.reverseRecOn with
  | nil => exact encodable_default
  | append_singleton records record ih =>
      have hinit := ih fun other hother => hfits other (List.mem_append_left _ hother)
      rw [serial_concat, ← snd_applyDedup, Core.applyDedup]
      split
      · exact hinit
      · exact encodable_apply (hfits record (by simp)) hinit

/-- A complete record behind a whole log is read behind the others. -/
theorem readLog_append {disk : Disk} (hwhole : tornTail disk = []) (ts : UInt64) {payload : Bytes}
    (hfits : PayloadFits payload) :
    readLog { disk with oplog := some (disk.oplog.getD [] ++ encodeRecord ts payload) }
      = readLog disk ++ [(ts, payload)] := by
  have hsplit := split_append hwhole (encodeRecord ts payload)
  rw [split_encodeRecord hfits] at hsplit
  exact congrArg Prod.fst hsplit

variable (S) in
omit [LawfulStateMachine S] in
/-- A complete record behind a whole log is one more input of the journal. -/
theorem store_append {disk : Disk} (hwhole : tornTail disk = []) (ts : UInt64) {op : Op}
    (hop : op.Loggable) :
    let logged := { disk with oplog := some (disk.oplog.getD [] ++ encodeRecord ts op.encode) }
    logged.store S = { disk.store S with log := disk.records ++ [(ts, op)] }
      ∧ tornTail logged = [] := by
  have hsplit := split_append hwhole (encodeRecord ts op.encode)
  rw [split_encodeRecord hop.2] at hsplit
  have hread := readLog_append hwhole ts hop.2
  refine ⟨?_, congrArg Prod.snd hsplit⟩
  simp only [Disk.store, Disk.records, hread, List.filterMap_append, List.filterMap_cons,
    List.filterMap_nil, Op.decode_encode hop.1, Option.map_some]
  rfl

variable (S) in
omit [LawfulStateMachine S] in
/-- A record cut short behind a whole log is no input of the journal. -/
theorem store_append_take {disk : Disk} (hwhole : tornTail disk = []) (ts : UInt64) {op : Op}
    (hop : op.Loggable) {cut : Nat} (hcut : cut < (encodeRecord ts op.encode).length) :
    let torn := { disk with
      oplog := some (disk.oplog.getD [] ++ (encodeRecord ts op.encode).take cut) }
    torn.store S = disk.store S ∧ tornTail torn = (encodeRecord ts op.encode).take cut := by
  have hsplit := split_append hwhole ((encodeRecord ts op.encode).take cut)
  rw [split_take_encodeRecord hop.2 hcut, List.append_nil] at hsplit
  have hread : readLog { disk with
      oplog := some (disk.oplog.getD [] ++ (encodeRecord ts op.encode).take cut) }
      = readLog disk := by
    change (split _).1 = (split _).1
    rw [Option.getD_some, hsplit]
  refine ⟨?_, congrArg Prod.snd hsplit⟩
  simp only [Disk.store, Disk.records, hread]
  rfl

variable (S) in
omit [LawfulStateMachine S] in
theorem recovered_append {disk : Disk} (hwhole : tornTail disk = []) (ts : UInt64) {op : Op}
    (hop : op.Loggable) :
    { disk with oplog := some (disk.oplog.getD [] ++ encodeRecord ts op.encode) }.recovered S
      = (dedup S).deliver (disk.recovered S) (ts, op) := by
  rw [Disk.recovered, (store_append S hwhole ts hop).1]
  exact Journal.Store.recovered_append (ts, op)

variable (S) in
omit [LawfulStateMachine S] in
theorem recovered_append_take {disk : Disk} (hwhole : tornTail disk = []) (ts : UInt64) {op : Op}
    (hop : op.Loggable) {cut : Nat} (hcut : cut < (encodeRecord ts op.encode).length) :
    { disk with
      oplog := some (disk.oplog.getD [] ++ (encodeRecord ts op.encode).take cut) }.recovered S
      = disk.recovered S := by
  rw [Disk.recovered, (store_append_take S hwhole ts hop hcut).1, Disk.recovered]

/-- The renamed snapshot is the journal's checkpoint. -/
theorem store_rename {core : Core S} (hencodable : Encodable core.state) (hfits : core.Fits)
    (disk : Disk) :
    { disk with snapshot := some core.encodeSnapshot }.store S
      = { disk.store S with checkpoint := core } := by
  simp only [Disk.store, Engine.loaded, loadSnapshot_encodeSnapshot hencodable hfits]
  rfl

/-- However far installing the recovered core as a snapshot gets, the directory still recovers to
that core. -/
theorem recovered_writeSnapshot {disk : Disk} {core : Core S} (hencodable : Encodable core.state)
    (hfits : core.Fits) (hrecovered : disk.recovered S = core) (fault : SnapshotFault) :
    (writeSnapshot fault disk core.encodeSnapshot).2.recovered S = core := by
  have hrenamed : { disk with snapshot := some core.encodeSnapshot }.recovered S = core := by
    rw [Disk.recovered, store_rename hencodable hfits, ← hrecovered]
    exact Journal.Store.recovered_install
  have hremoved : { disk with snapshot := some core.encodeSnapshot, oplog := none }.recovered S
      = core := by
    rw [Disk.recovered, store_rename hencodable hfits { disk with oplog := none }]
    exact Journal.Store.recovered_clear core
  cases fault with
  | none => exact hremoved
  | crashBefore => exact hrecovered
  | failBefore => exact hrecovered
  | crashRenamed => exact hrenamed
  | keepLog => exact hrenamed
  | crashAfter => exact hremoved

/-- A log of one record recovers to what the record decodes to. -/
theorem recovered_of_split_eq_singleton {log payload : Bytes} {ts : UInt64}
    (hsplit : (split log).1 = [(ts, payload)]) :
    Disk.recovered KvStore { oplog := some log, snapshot := none }
      = serial KvStore ((Op.decode payload).map (ts, ·)).toList := by
  have hread : readLog { oplog := some log, snapshot := none } = [(ts, payload)] := hsplit
  simp only [Disk.recovered, Disk.store, Disk.records, hread, List.filterMap_cons,
    List.filterMap_nil]
  cases Op.decode payload <;> rfl

/-- A key one byte too long for its length field. -/
def longKey (size : Nat) : String := String.ofList (List.replicate size 'a')

omit [LawfulStateMachine S] in
/-- A log that holds one op with such a key recovers to nothing. -/
theorem recover_longKey {size : Nat} (hsize : size = 2 ^ 16 - 1 + 1) (client : UInt32)
    (seq ts interval : UInt64) :
    (Engine.recover { oplog := some (encodeRecord ts
        (Op.encode ⟨client, seq, .set (longKey size) []⟩)), snapshot := none } interval : Engine S)
      = Engine.recover Disk.empty interval := by
  have hkey : Utf8.asBytes (longKey size) = List.replicate (2 ^ 16 - 1) 97 ++ [97] := by
    rw [longKey, Utf8.asBytes_replicate, hsize, List.replicate_succ']
  have hdecode : Op.decode (Op.encode ⟨client, seq, .set (longKey size) []⟩) = none :=
    decode_encode_of_long_key hkey List.length_replicate (by decide)
  have hfits : PayloadFits (Op.encode ⟨client, seq, .set (longKey size) []⟩) := by
    rw [PayloadFits, Op.length_encode_set, hkey, List.length_append, List.length_replicate]
    decide
  have hread : readLog { oplog := some (encodeRecord ts
      (Op.encode ⟨client, seq, .set (longKey size) []⟩)), snapshot := none }
        = [(ts, Op.encode ⟨client, seq, .set (longKey size) []⟩)] :=
    congrArg Prod.fst (split_encodeRecord hfits)
  simp only [Engine.recover, hread, List.foldl_cons, List.foldl_nil, Core.replayRecord, hdecode]
  rfl

end OneBarrier
