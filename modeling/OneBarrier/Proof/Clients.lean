import OneBarrier.Proof.Coherence

/-!
# The clients a directory knows

A process that starts takes its first connection id above every client of the marks it recovers.
Which clients these can be is decided by what was written: the marks of the snapshot and the headers
of the log's records. An op keeps its client in the log even where its key is too long to come back,
as long as its record is framed.
-/

namespace OneBarrier

open Wire Utf8 Durable

/-- Whatever an op's encoding decodes to, it is an op of the same client. -/
theorem Op.client_of_decode {op other : Op} (hdecode : Op.decode op.encode = some other) :
    other.client = op.client := by
  rw [Op.decode, Op.encode, readOp, (u8_exact op.tag).run_bind, (u32_exact op.client).run_bind,
    (u64_exact op.seq).run_bind] at hdecode
  obtain ⟨⟨read, rest⟩, hread, rfl⟩ := Option.map_eq_some_iff.mp hdecode
  obtain ⟨⟨key, behind⟩, -, hkind⟩ := Option.bind_eq_some_iff.mp hread
  obtain ⟨⟨kind, last⟩, -, hop⟩ := Option.bind_eq_some_iff.mp hkind
  cases hop
  rfl

instance lawfulOrderMax_uint32 : Std.LawfulOrderMax UInt32 where
  max_eq_or first second := by
    change (if first ≤ second then second else first) = first ∨ _ = second
    split
    · rename_i hle
      exact .inr (if_pos hle)
    · exact .inl rfl
  max_le_iff first second bound := by
    change (if first ≤ second then second else first) ≤ bound ↔ _
    split
    · rename_i hle
      exact ⟨fun hsecond => ⟨UInt32.le_trans hle hsecond, hsecond⟩, And.right⟩
    · rename_i hnot
      have hge : second ≤ first := UInt32.le_of_lt (UInt32.not_le.mp hnot)
      exact ⟨fun hfirst => ⟨hfirst, UInt32.le_trans hge hfirst⟩, And.left⟩

variable {S : Type} [StateMachine S] {known : UInt32 → Prop}

/-- Every client with a mark is a known one. -/
def Core.ClientsIn (known : UInt32 → Prop) (core : Core S) : Prop :=
  ∀ client ∈ core.applied, known client

theorem Core.clientsIn_init : (Core.init : Core S).ClientsIn known :=
  fun _ hclient => absurd hclient Std.ExtTreeMap.not_mem_empty

theorem Core.ClientsIn.deliver {core : Core S} (hcore : core.ClientsIn known) {record : Record}
    (hrecord : known record.2.client) : ((dedup S).deliver core record).ClientsIn known := by
  rw [← snd_applyDedup, Core.applyDedup]
  split
  · exact hcore
  · intro client hclient
    rcases Std.ExtTreeMap.mem_insert.mp hclient with hsame | hold
    · rw [← Std.LawfulEqCmp.compare_eq_iff_eq.mp hsame]
      exact hrecord
    · exact hcore client hold

theorem Core.ClientsIn.deliverAll {core : Core S} (hcore : core.ClientsIn known)
    {records : List Record} (hrecords : ∀ record ∈ records, known record.2.client) :
    ((dedup S).deliverAll core records).ClientsIn known := by
  induction records generalizing core with
  | nil => exact hcore
  | cons record records ih =>
      rw [Journal.Machine.deliverAll_cons]
      refine ih (hcore.deliver (hrecords record List.mem_cons_self)) ?_
      exact fun other hother => hrecords other (List.mem_cons_of_mem _ hother)

omit [StateMachine S] in
theorem Core.ClientsIn.imp {core : Core S} (hcore : core.ClientsIn known) {more : UInt32 → Prop}
    (hmore : ∀ client, known client → more client) : core.ClientsIn more :=
  fun client hclient => hmore client (hcore client hclient)

omit [StateMachine S] in
theorem Core.le_maxClient {core : Core S} {client : UInt32} (hclient : client ∈ core.applied) :
    client ≤ core.maxClient := by
  have hkey := Std.ExtTreeMap.mem_keys.mpr hclient
  obtain ⟨last, hlast⟩ := Option.isSome_iff_exists.mp (List.isSome_max?_of_mem hkey)
  rw [Core.maxClient, hlast, Option.getD_some]
  exact (List.max?_eq_some_iff.mp hlast).2 client hkey

omit [StateMachine S] in
theorem Core.ClientsIn.maxClient {core : Core S} (hcore : core.ClientsIn known) (hzero : known 0) :
    known core.maxClient := by
  rw [Core.maxClient]
  cases hlast : core.applied.keys.max? with
  | none => exact hzero
  | some client => exact hcore client (Std.ExtTreeMap.mem_keys.mp (List.max?_mem hlast))

omit [StateMachine S] in
theorem Core.highWater_of_not_mem {core : Core S} {client : UInt32}
    (hclient : client ∉ core.applied) : core.highWater client = 0 := by
  rw [Core.highWater, Std.ExtTreeMap.getElem?_eq_none hclient, Option.getD_none]

/-! ### Snapshots -/

/-- The marks that come back are among those written, however many of them the count covers. -/
theorem mem_loadMarks {marks : List (UInt32 × UInt64)} {count : Nat} (hcount : count ≤ marks.length)
    {rest : Bytes} {start : BTreeMap UInt32 UInt64} {client : UInt32}
    (hclient : client ∈ (Core.loadMarks count (marks.flatMap Core.encodeMark ++ rest) start).1) :
    client ∈ start ∨ client ∈ marks.map Prod.fst := by
  induction count generalizing marks start with
  | zero => exact .inl hclient
  | succ count ih =>
      obtain ⟨mark, marks, rfl⟩ : ∃ mark later, marks = mark :: later :=
        List.exists_cons_of_length_pos (by omega)
      rw [List.flatMap_cons, List.append_assoc, Core.encodeMark, List.append_assoc, Core.loadMarks,
        (u32_exact mark.1).reads] at hclient
      simp only [(u64_exact mark.2).reads] at hclient
      rcases ih (by simpa using hcount) hclient with hstart | hlater
      · rcases Std.ExtTreeMap.mem_insert.mp hstart with hsame | hold
        · right
          rw [← Std.LawfulEqCmp.compare_eq_iff_eq.mp hsame]
          exact List.mem_cons_self
        · exact .inl hold
      · exact .inr (List.mem_cons_of_mem _ hlater)

theorem Core.ClientsIn.loadSnapshot {core : Core S} (hcore : core.ClientsIn known) :
    ((Core.init : Core S).loadSnapshot core.encodeSnapshot).ClientsIn known := by
  have hcount : min core.applied.size (256 ^ 4 - 1) < 2 ^ 32 := by omega
  rw [Core.encodeSnapshot, Core.loadSnapshot, (u64_exact core.lastTs).reads]
  simp only [lengthBytes, (u32_exact_ofNat hcount).reads, UInt32.toNat_ofNat',
    Nat.mod_eq_of_lt hcount]
  generalize hmarks : Core.loadMarks (min core.applied.size (256 ^ 4 - 1)) _ ∅ = marks
  have hloaded : ∀ client ∈ marks.1, known client := by
    intro client hclient
    rw [← hmarks] at hclient
    have hlength : min core.applied.size (256 ^ 4 - 1) ≤ core.applied.toList.length := by
      rw [Std.ExtTreeMap.length_toList]
      exact Nat.min_le_left _ _
    rcases mem_loadMarks hlength hclient with hnone | hmark
    · exact absurd hnone Std.ExtTreeMap.not_mem_empty
    · rw [Std.ExtTreeMap.map_fst_toList_eq_keys, Std.ExtTreeMap.mem_keys] at hmark
      exact hcore client hmark
  split
  · exact Core.clientsIn_init
  · split
    · exact Core.clientsIn_init
    · exact hloaded

/-! ### Directories -/

variable (S) in
/-- Every client a recovery of this directory can find is a known one, and the log ends at a record
boundary. -/
structure Disk.ClientsIn (known : UInt32 → Prop) (disk : Disk) : Prop where
  whole : tornTail disk = []
  checkpoint : (Engine.loaded disk : Core S).ClientsIn known
  records : ∀ record ∈ disk.records, known record.2.client

theorem Disk.clientsIn_empty : Disk.empty.ClientsIn S known where
  whole := rfl
  checkpoint := Core.clientsIn_init
  records := fun _ hrecord => by cases hrecord

theorem Disk.ClientsIn.recovered {disk : Disk} (hdisk : disk.ClientsIn S known) :
    (disk.recovered S).ClientsIn known := hdisk.checkpoint.deliverAll hdisk.records

theorem Disk.ClientsIn.imp {disk : Disk} (hdisk : disk.ClientsIn S known) {more : UInt32 → Prop}
    (hmore : ∀ client, known client → more client) : disk.ClientsIn S more where
  whole := hdisk.whole
  checkpoint := hdisk.checkpoint.imp hmore
  records := fun record hrecord => hmore _ (hdisk.records record hrecord)

theorem Disk.ClientsIn.append {disk : Disk} (hdisk : disk.ClientsIn S known) (ts : UInt64) {op : Op}
    (hfits : PayloadFits op.encode) (hknown : known op.client) :
    Disk.ClientsIn S known
      { disk with oplog := some (disk.oplog.getD [] ++ encodeRecord ts op.encode) } := by
  have hsplit := split_append hdisk.whole (encodeRecord ts op.encode)
  rw [split_encodeRecord hfits] at hsplit
  have hread : readLog { disk with oplog := some (disk.oplog.getD [] ++ encodeRecord ts op.encode) }
      = readLog disk ++ [(ts, op.encode)] := congrArg Prod.fst hsplit
  refine ⟨congrArg Prod.snd hsplit, hdisk.checkpoint, fun record hrecord => ?_⟩
  rw [Disk.records, hread, List.filterMap_append, List.mem_append] at hrecord
  rcases hrecord with hold | hlast
  · exact hdisk.records record hold
  · simp only [List.mem_filterMap, List.mem_singleton] at hlast
    obtain ⟨-, rfl, hdecode⟩ := hlast
    obtain ⟨other, hother, rfl⟩ := Option.map_eq_some_iff.mp hdecode
    exact Op.client_of_decode hother ▸ hknown

theorem Disk.ClientsIn.writeSnapshot {disk : Disk} (hdisk : disk.ClientsIn S known) {core : Core S}
    (hcore : core.ClientsIn known) (fault : SnapshotFault) :
    (Durable.writeSnapshot fault disk core.encodeSnapshot).2.ClientsIn S known := by
  have hrenamed : Disk.ClientsIn S known { disk with snapshot := some core.encodeSnapshot } :=
    ⟨hdisk.whole, hcore.loadSnapshot, hdisk.records⟩
  have hremoved : Disk.ClientsIn S known
      { disk with snapshot := some core.encodeSnapshot, oplog := none } :=
    ⟨rfl, hcore.loadSnapshot, fun _ hrecord => by cases hrecord⟩
  cases fault with
  | none => exact hremoved
  | crashBefore => exact hdisk
  | failBefore => exact hdisk
  | crashRenamed => exact hrenamed
  | keepLog => exact hrenamed
  | crashAfter => exact hremoved

section Deliver

variable {engine : Engine S} {disk : Disk} {faults : Faults} {ts : UInt64} {op : Op}

/-- A delivery within the record format and the record-atomic crash model adds no client but the
op's. -/
theorem Disk.ClientsIn.deliver (hdisk : disk.ClientsIn S known)
    (hengine : engine.toCore.ClientsIn known) (hknown : known op.client)
    (hfits : PayloadFits op.encode)
    (hatomic : faults.append.IsAtomic (encodeRecord ts op.encode)) :
    (engine.deliver faults disk ts op).2.2.ClientsIn S known := by
  by_cases hfresh : (dedup S).fresh engine.toCore (ts, op)
  · have hlogged := hdisk.append ts hfits hknown
    have htaken : ((dedup S).apply engine.toCore (ts, op)).ClientsIn known := by
      rw [← Journal.Machine.deliver_of_fresh hfresh]
      exact hengine.deliver hknown
    rw [deliver_of_fresh hfresh]
    obtain ⟨fault, snapshotFault⟩ := faults
    cases fault with
    | none =>
        simp only [Durable.append, snapshotIfDue_disk]
        split
        · exact hlogged.writeSnapshot htaken _
        · exact hlogged
    | crashBefore => exact hdisk
    | failBefore => exact hatomic.elim
    | fail written => exact hatomic.elim
    | crash written =>
        rcases hatomic with rfl | hwritten
        · simp only [Durable.append, List.take_zero, List.append_nil]
          exact ⟨hdisk.whole, hdisk.checkpoint, hdisk.records⟩
        · simpa [Durable.append, List.take_of_length_le hwritten] using hlogged
  · rw [deliver_of_not_fresh hfresh]
    exact hdisk

end Deliver

end OneBarrier
