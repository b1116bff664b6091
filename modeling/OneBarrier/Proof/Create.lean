import OneBarrier.Proof.Coherence

/-!
# Creating an engine on a directory that is in use

`create` starts with empty memory and leaves the files where they are. What is then appended goes
behind the old log, and `recover` starts from the old snapshot, so the old contents come back with
the next recovery unless there is nothing in them to come back.
-/

namespace OneBarrier

open Wire Durable

variable {S : Type} [StateMachine S]

/-! ### Two directories under one engine -/

/-- Calls in order, each with the faults it meets; `none` once a call does not return `Ok`. -/
def Engine.serveAll : List (Faults × Record) → Engine S → Disk → Option Disk
  | [], _, disk => some disk
  | (faults, ts, op) :: calls, engine, disk =>
      match engine.deliver faults disk ts op with
      | (.ok _, engine, disk) => serveAll calls engine disk
      | (.err, _, _) | (.crash, _, _) => none

/-- An engine created on the directory is recovered as from an empty one, whatever it has served. -/
def Disk.CreatesFresh (S : Type) [StateMachine S] (disk : Disk) : Prop :=
  ∀ (interval : UInt64) (calls : List (Faults × Record)) (served : Disk),
    Engine.serveAll calls (Engine.create interval : Engine S) disk = some served →
    ∃ clean, Engine.serveAll calls (Engine.create interval : Engine S) Disk.empty = some clean
      ∧ ∀ next : UInt64,
        (Engine.recover served next : Engine S).state
            = (Engine.recover clean next : Engine S).state
          ∧ (Engine.recover served next : Engine S).applied
            = (Engine.recover clean next : Engine S).applied

/-- Nothing in the directory comes back. -/
structure Disk.Blank (S : Type) [StateMachine S] (disk : Disk) : Prop where
  state : (Engine.loaded disk : Core S).state = StateMachine.default
  marks : (Engine.loaded disk : Core S).applied = ∅
  covered : ∀ record ∈ disk.records, record.2.seq = 0
  whole : tornTail disk = []

/-- The cores agree on everything but the horizon. -/
def Core.Agrees (core other : Core S) : Prop :=
  core.state = other.state ∧ core.applied = other.applied

theorem Core.Agrees.deliver {core other : Core S} (hagrees : core.Agrees other) (record : Record) :
    ((dedup S).deliver core record).Agrees ((dedup S).deliver other record) := by
  have hmark : core.highWater record.2.client = other.highWater record.2.client := by
    rw [Core.highWater, Core.highWater, hagrees.2]
  obtain ⟨ts, op⟩ := record
  rw [← snd_applyDedup, ← snd_applyDedup, Core.applyDedup, Core.applyDedup, hmark]
  split
  · exact hagrees
  · exact ⟨by rw [hagrees.1], by rw [hagrees.2]⟩

theorem Core.Agrees.deliverAll {core other : Core S} (hagrees : core.Agrees other)
    (records : List Record) :
    ((dedup S).deliverAll core records).Agrees ((dedup S).deliverAll other records) := by
  induction records generalizing core other with
  | nil => exact hagrees
  | cons record records ih => exact ih (hagrees.deliver record)

/-- The log bytes of a disk. -/
def Disk.log (disk : Disk) : Bytes := disk.oplog.getD []

/-- The records of a log that decode. -/
def decoded (raw : Bytes) : List Record :=
  (split raw).1.filterMap fun record => (Op.decode record.2).map (record.1, ·)

theorem records_eq_decoded (disk : Disk) : disk.records = decoded disk.log := rfl

/-- The disks recover alike, and go on doing so: the same snapshot for all that matters, and in front
of the same log only records that are covered from the start. -/
structure Disk.Shadows (S : Type) [StateMachine S] (disk other : Disk) : Prop where
  loaded : (Engine.loaded disk : Core S).Agrees (Engine.loaded other)
  log : ∃ lead, (split lead).2 = [] ∧ (∀ record ∈ decoded lead, record.2.seq = 0)
    ∧ disk.log = lead ++ other.log

theorem Disk.Shadows.recovered {disk other : Disk} (hshadows : disk.Shadows S other) :
    (disk.recovered S).Agrees (other.recovered S) := by
  obtain ⟨hloaded, lead, hwhole, hcovered, hlog⟩ := hshadows
  have hrecords : disk.records = decoded lead ++ other.records := by
    rw [records_eq_decoded, records_eq_decoded, hlog, decoded, split_append hwhole,
      List.filterMap_append]
    rfl
  have hlead : (dedup S).deliverAll (Engine.loaded disk) (decoded lead) = Engine.loaded disk := by
    refine Journal.Machine.deliverAll_of_not_fresh fun record hrecord hfresh => ?_
    have hlt : (Engine.loaded disk : Core S).highWater record.2.client < record.2.seq := hfresh
    rw [hcovered record hrecord] at hlt
    exact UInt64.not_lt_zero hlt
  change ((dedup S).deliverAll (Engine.loaded disk) disk.records).Agrees _
  rw [hrecords, Journal.Machine.deliverAll_append, hlead]
  exact hloaded.deliverAll other.records

theorem Disk.Shadows.append {disk other : Disk} (hshadows : disk.Shadows S other)
    (fault : AppendFault) (ts : UInt64) (payload : Bytes) :
    (append fault disk ts payload).1 = (append fault other ts payload).1
      ∧ (append fault disk ts payload).2.Shadows S (append fault other ts payload).2 := by
  obtain ⟨hloaded, lead, hwhole, hcovered, hlog⟩ := hshadows
  have hlog' (bytes : Bytes) : disk.log ++ bytes = lead ++ (other.log ++ bytes) := by
    rw [hlog, List.append_assoc]
  cases fault with
  | none => exact ⟨rfl, hloaded, lead, hwhole, hcovered, hlog' _⟩
  | crashBefore => exact ⟨rfl, hloaded, lead, hwhole, hcovered, hlog⟩
  | failBefore => exact ⟨rfl, hloaded, lead, hwhole, hcovered, hlog⟩
  | crash written => exact ⟨rfl, hloaded, lead, hwhole, hcovered, hlog' _⟩
  | fail written => exact ⟨rfl, hloaded, lead, hwhole, hcovered, hlog' _⟩

theorem Disk.Shadows.writeSnapshot {disk other : Disk} (hshadows : disk.Shadows S other)
    (fault : SnapshotFault) (bytes : Bytes) :
    (writeSnapshot fault disk bytes).1 = (writeSnapshot fault other bytes).1
      ∧ (writeSnapshot fault disk bytes).2.Shadows S (writeSnapshot fault other bytes).2 := by
  have hcleared : ∃ lead, (split lead).2 = [] ∧ (∀ record ∈ decoded lead, record.2.seq = 0)
      ∧ ([] : Bytes) = lead ++ [] := ⟨[], rfl, by rintro _ ⟨⟩, rfl⟩
  cases fault with
  | none => exact ⟨rfl, ⟨rfl, rfl⟩, hcleared⟩
  | crashBefore => exact ⟨rfl, hshadows⟩
  | failBefore => exact ⟨rfl, hshadows⟩
  | crashRenamed => exact ⟨rfl, ⟨rfl, rfl⟩, hshadows.log⟩
  | keepLog => exact ⟨rfl, ⟨rfl, rfl⟩, hshadows.log⟩
  | crashAfter => exact ⟨rfl, ⟨rfl, rfl⟩, hcleared⟩

theorem Disk.Shadows.snapshotIfDue {disk other : Disk} (hshadows : disk.Shadows S other)
    (engine : Engine S) (fault : SnapshotFault) (out : Output) :
    let result := engine.snapshotIfDue fault disk out
    let result' := engine.snapshotIfDue fault other out
    result.1 = result'.1 ∧ result.2.1 = result'.2.1 ∧ result.2.2.Shadows S result'.2.2 := by
  have hwritten := hshadows.writeSnapshot fault engine.encodeSnapshot
  rw [Engine.snapshotIfDue, Engine.snapshotIfDue]
  split
  · rw [Engine.snapshot, Engine.snapshot]
    generalize Durable.writeSnapshot fault disk engine.encodeSnapshot = result at hwritten
    generalize Durable.writeSnapshot fault other engine.encodeSnapshot = result' at hwritten
    obtain ⟨outcome, written⟩ := result
    obtain ⟨outcome', written'⟩ := result'
    obtain ⟨rfl, hdisk⟩ := hwritten
    cases outcome <;> exact ⟨rfl, rfl, hdisk⟩
  · exact ⟨rfl, rfl, hshadows⟩

/-- One call has the same outcome and the same effect in memory on both directories. -/
theorem Disk.Shadows.deliver {disk other : Disk} (hshadows : disk.Shadows S other)
    (engine : Engine S) (faults : Faults) (ts : UInt64) (op : Op) :
    let result := engine.deliver faults disk ts op
    let result' := engine.deliver faults other ts op
    result.1 = result'.1 ∧ result.2.1 = result'.2.1 ∧ result.2.2.Shadows S result'.2.2 := by
  by_cases hfresh : (dedup S).fresh engine.toCore (ts, op)
  · have happended := hshadows.append faults.append ts op.encode
    rw [deliver_of_fresh hfresh, deliver_of_fresh hfresh]
    generalize Durable.append faults.append disk ts op.encode = result at happended
    generalize Durable.append faults.append other ts op.encode = result' at happended
    obtain ⟨outcome, written⟩ := result
    obtain ⟨outcome', written'⟩ := result'
    obtain ⟨rfl, hdisk⟩ := happended
    cases outcome with
    | ok => exact hdisk.snapshotIfDue _ _ _
    | err => exact ⟨rfl, rfl, hdisk⟩
    | crash => exact ⟨rfl, rfl, hdisk⟩
  · rw [deliver_of_not_fresh hfresh, deliver_of_not_fresh hfresh]
    exact ⟨rfl, rfl, hshadows⟩

theorem Disk.Shadows.serveAll {disk other : Disk} (hshadows : disk.Shadows S other)
    (calls : List (Faults × Record)) (engine : Engine S) {served : Disk}
    (hserved : Engine.serveAll calls engine disk = some served) :
    ∃ clean, Engine.serveAll calls engine other = some clean ∧ served.Shadows S clean := by
  induction calls generalizing engine disk other with
  | nil =>
      obtain rfl := Option.some.inj hserved
      exact ⟨other, rfl, hshadows⟩
  | cons call calls ih =>
      obtain ⟨faults, ts, op⟩ := call
      have hcall := hshadows.deliver engine faults ts op
      rw [Engine.serveAll] at hserved ⊢
      generalize engine.deliver faults disk ts op = result at hcall hserved
      generalize engine.deliver faults other ts op = result' at hcall
      obtain ⟨outcome, after, written⟩ := result
      obtain ⟨outcome', after', written'⟩ := result'
      obtain ⟨rfl, rfl, hdisk⟩ := hcall
      cases outcome with
      | ok out => exact ih hdisk after hserved
      | err => cases hserved
      | crash => cases hserved

/-- **Sufficient.** -/
theorem Disk.Blank.createsFresh {disk : Disk} (hblank : disk.Blank S) : disk.CreatesFresh S := by
  intro interval calls served hserved
  have hshadows : disk.Shadows S Disk.empty :=
    ⟨⟨hblank.state, hblank.marks⟩, disk.log, hblank.whole, hblank.covered,
      (List.append_nil _).symm⟩
  obtain ⟨clean, hclean, hafter⟩ := hshadows.serveAll calls _ hserved
  refine ⟨clean, hclean, fun next => ?_⟩
  rw [recover_toCore, recover_toCore]
  exact hafter.recovered

/-! ### Necessary -/

omit [StateMachine S] in
theorem Core.highWater_of_marks {core : Core S} (hmarks : core.applied = ∅) (client : UInt32) :
    core.highWater client = 0 := by
  rw [Core.highWater, hmarks, Std.ExtTreeMap.getElem?_empty]
  rfl

/-- Where no client has a mark, nothing has been taken. -/
theorem eq_of_deliverAll_marks {core : Core S} {records : List Record}
    (hmarks : ((dedup S).deliverAll core records).applied = ∅) :
    (dedup S).deliverAll core records = core := by
  induction records generalizing core with
  | nil => rfl
  | cons record records ih =>
      rw [Journal.Machine.deliverAll_cons] at hmarks ⊢
      have hlater := ih hmarks
      rw [hlater] at hmarks ⊢
      refine Journal.Machine.deliver_of_not_fresh fun hfresh => ?_
      have hlt : core.highWater record.2.client < record.2.seq := hfresh
      have hcovered := @Journal.Machine.not_fresh_deliver_self _ _ _ (dedup S) core record
      have hle := UInt64.not_lt.mp hcovered
      rw [Core.highWater_of_marks hmarks] at hle
      exact UInt64.not_lt_zero (UInt64.lt_of_lt_of_le hlt hle)

/-- A mark comes from the core or from one of the records. -/
theorem mark_deliverAll {core : Core S} {records : List Record} {client : UInt32} {seq : UInt64}
    (hmark : ((dedup S).deliverAll core records).applied[client]? = some seq) :
    core.applied[client]? = some seq
      ∨ ∃ record ∈ records, record.2.client = client ∧ record.2.seq = seq := by
  induction records generalizing core with
  | nil => exact .inl hmark
  | cons record records ih =>
      rcases ih hmark with hhere | ⟨other, hother, hsame⟩
      · obtain ⟨ts, op⟩ := record
        rw [← snd_applyDedup, Core.applyDedup] at hhere
        split at hhere
        · exact .inl hhere
        · simp only [Std.ExtTreeMap.getElem?_insert, Std.LawfulEqCmp.compare_eq_iff_eq] at hhere
          split at hhere
          · rename_i hclient
            exact .inr ⟨_, List.mem_cons_self, hclient, Option.some.inj hhere⟩
          · exact .inl hhere
      · exact .inr ⟨other, List.mem_cons_of_mem _ hother, hsame⟩

/-- The bytes of a decoded op's client and seq. -/
theorem decode_marks {payload : Bytes} {op : Op} (hdecode : Op.decode payload = some op) :
    ∃ tag rest, payload
      = tag :: (leBytes 4 op.client.toNat ++ (leBytes 8 op.seq.toNat ++ rest)) := by
  obtain ⟨⟨op, left⟩, hread, rfl⟩ := Option.map_eq_some_iff.mp hdecode
  cases payload with
  | nil => cases hread
  | cons tag input =>
      obtain ⟨⟨client, afterClient⟩, hclient, hread⟩ := Option.bind_eq_some_iff.mp hread
      obtain ⟨⟨seq, afterSeq⟩, hseq, hread⟩ := Option.bind_eq_some_iff.mp hread
      obtain ⟨⟨key, afterKey⟩, -, hread⟩ := Option.bind_eq_some_iff.mp hread
      obtain ⟨⟨kind, rest⟩, -, hread⟩ := Option.bind_eq_some_iff.mp hread
      obtain ⟨rfl, -⟩ := Prod.mk.inj (Option.some.inj hread)
      exact ⟨tag, afterSeq, by rw [eq_append_of_u32 hclient, eq_append_of_u64 hseq]⟩

/-- A `DEL` whose client and seq repeat one byte. -/
def stamped (byte : UInt8) : Op :=
  { client := UInt32.ofNat (leNat (List.replicate 4 byte))
    seq := UInt64.ofNat (leNat (List.replicate 8 byte))
    kind := .del "" }

theorem leBytes_stamped (byte : UInt8) :
    leBytes 4 (stamped byte).client.toNat = List.replicate 4 byte
      ∧ leBytes 8 (stamped byte).seq.toNat = List.replicate 8 byte := by
  have hclient := leNat_lt (List.replicate 4 byte)
  have hseq := leNat_lt (List.replicate 8 byte)
  have hclient' := leBytes_leNat (List.replicate 4 byte)
  have hseq' := leBytes_leNat (List.replicate 8 byte)
  rw [List.length_replicate] at hclient hseq hclient' hseq'
  replace hclient : leNat (List.replicate 4 byte) < 2 ^ 32 := hclient
  replace hseq : leNat (List.replicate 8 byte) < 2 ^ 64 := hseq
  rw [stamped, UInt32.toNat_ofNat', UInt64.toNat_ofNat', Nat.mod_eq_of_lt hclient,
    Nat.mod_eq_of_lt hseq]
  exact ⟨hclient', hseq'⟩

/-- What stands where the client and seq of a payload are read. -/
theorem byte_of_decode_stamped {payload : Bytes} {op : Op} {byte : UInt8}
    (hdecode : Op.decode payload = some op) (hclient : op.client = (stamped byte).client)
    (hseq : op.seq = (stamped byte).seq) {index : Nat} (hindex : index < 12) :
    payload[index + 1]? = some byte := by
  obtain ⟨tag, rest, rfl⟩ := decode_marks hdecode
  obtain ⟨hclient', hseq'⟩ := leBytes_stamped byte
  rw [hclient, hseq, hclient', hseq', List.getElem?_cons_succ, ← List.append_assoc,
    List.replicate_append_replicate, List.getElem?_append_left (by simpa using hindex),
    List.getElem?_replicate, if_pos hindex]

/-- The record of a stamped op: no other byte of it is the stamp. -/
theorem encodeRecord_stamped (byte : UInt8) :
    encodeRecord 0 (stamped byte).encode
      = [0, 0, 0, 0, 0, 0, 0, 0, 15, 0, 0, 0, 3] ++ List.replicate 12 byte ++ [0, 0] := by
  obtain ⟨hclient, hseq⟩ := leBytes_stamped byte
  have hkey : Utf8.asBytes (stamped byte).key = [] := by
    change Utf8.asBytes "" = []
    decide
  have hencode : (stamped byte).encode = 3 :: (List.replicate 12 byte ++ [0, 0]) := by
    rw [Op.encode, hclient, hseq, hkey]
    rfl
  have hlength : (3 :: (List.replicate 12 byte ++ [0, 0])).length = 15 := by simp
  have hfield : lengthBytes 4 15 = [15, 0, 0, 0] := by decide
  rw [hencode, encodeRecord, hlength, hfield]
  rfl

/-- A partial record has no room for the stamp where the record that starts in it is read, if the
stamp is not there already; and behind the first byte of a stamped op no other is read. -/
theorem not_stamped_behind_torn {torn : Bytes} {byte : UInt8} (htorn : split torn = ([], torn))
    (hne : torn ≠ []) (hbyte : byte ≠ 0 ∧ byte ≠ 3)
    (hfirst : (torn.drop 13).take 12 ≠ List.replicate 12 byte) {record : Record}
    (hrecord : record ∈ decoded (torn ++ encodeRecord 0 (stamped byte).encode)) :
    ¬ (record.2.client = (stamped byte).client ∧ record.2.seq = (stamped byte).seq) := by
  rintro ⟨hclient, hseq⟩
  obtain ⟨⟨ts, payload⟩, hpayload, hop⟩ := List.mem_filterMap.mp hrecord
  obtain ⟨op, hdecode, rfl⟩ := Option.map_eq_some_iff.mp hop
  have hbytes : ∀ index < 12, payload[index + 1]? = some byte :=
    fun index hindex => byte_of_decode_stamped hdecode hclient hseq hindex
  have hbehind {raw : Bytes} (hlead : payload <+: raw) :
      ∀ index < 12, raw[index + 1]? = some byte := by
    intro index hindex
    obtain ⟨more, rfl⟩ := hlead
    have hlong := (List.getElem?_eq_some_iff.mp (hbytes index hindex)).1
    rw [List.getElem?_append_left hlong]
    exact hbytes index hindex
  rw [encodeRecord_stamped] at hpayload
  generalize hstamped : [0, 0, 0, 0, 0, 0, 0, 0, 15, 0, 0, 0, 3] ++ List.replicate 12 byte ++ [0, 0]
    = stampedRecord at hpayload
  obtain hhere | ⟨position, hposition, hlater⟩ := exists_prefix_of_mem_split_torn htorn hpayload
  · have hwindow (index : Nat) (hindex : index < 12) :
        (torn ++ stampedRecord)[index + 13]? = some byte := by
      have hread := hbehind hhere index hindex
      rwa [List.getElem?_drop, Nat.add_comm 12, Nat.add_assoc] at hread
    have hlength := List.length_pos_iff.mpr hne
    by_cases hshort : torn.length ≤ 12
    · have hread := hwindow (torn.length - 1) (by omega)
      rw [List.getElem?_append_right (by omega),
        show torn.length - 1 + 13 - torn.length = 12 by omega, ← hstamped] at hread
      exact hbyte.2 (Option.some.inj hread).symm
    · by_cases hmiddle : torn.length ≤ 24
      · have hread := hwindow (torn.length - 13) (by omega)
        rw [List.getElem?_append_right (by omega),
          show torn.length - 13 + 13 - torn.length = 0 by omega, ← hstamped] at hread
        exact hbyte.1 (Option.some.inj hread).symm
      · refine hfirst (List.ext_getElem? fun index => ?_)
        rw [List.getElem?_take, List.getElem?_replicate]
        split
        · rename_i hindex
          have hread := hwindow index hindex
          rw [List.getElem?_append_left (by omega)] at hread
          rw [List.getElem?_drop, Nat.add_comm, hread]
        · rfl
  · have hwindow (index : Nat) (hindex : index < 12) :
        stampedRecord[position + (index + 1)]? = some byte := by
      have hread := hbehind hlater index hindex
      rwa [List.getElem?_drop] at hread
    by_cases hearly : position ≤ 24
    · have hread := hwindow (24 - position) (by omega)
      rw [show position + (24 - position + 1) = 25 by omega, ← hstamped] at hread
      exact hbyte.1 (Option.some.inj hread).symm
    · have hread := hwindow 0 (by omega)
      by_cases hlast : position = 25
      · rw [hlast, ← hstamped] at hread
        exact hbyte.1 (Option.some.inj hread).symm
      · have hlong : stampedRecord.length = 27 := by
          rw [← hstamped]
          rfl
        rw [List.getElem?_eq_none (by omega)] at hread
        cases hread

variable {disk : Disk}

/-- Before anything is served, the directory already recovers to nothing. -/
theorem Disk.CreatesFresh.untouched (hfresh : disk.CreatesFresh S) :
    (Engine.loaded disk : Core S).state = StateMachine.default
      ∧ (Engine.loaded disk : Core S).applied = ∅
      ∧ ∀ record ∈ disk.records, record.2.seq = 0 := by
  obtain ⟨clean, hclean, hsame⟩ := hfresh 1 [] disk rfl
  obtain rfl := Option.some.inj hclean
  have hrecovered := hsame 1
  rw [recover_toCore, recover_toCore, recovered_empty] at hrecovered
  obtain ⟨hstate, hmarks⟩ := hrecovered
  have hloaded : disk.recovered S = Engine.loaded disk := eq_of_deliverAll_marks hmarks
  rw [hloaded] at hstate hmarks
  refine ⟨hstate, hmarks, fun record hrecord => ?_⟩
  have hcovered : ¬ (dedup S).fresh (disk.recovered S) record :=
    Journal.Machine.not_fresh_deliverAll_of_mem hrecord
  have hle : record.2.seq ≤ (disk.recovered S).highWater record.2.client :=
    UInt64.not_lt.mp hcovered
  rw [hloaded, Core.highWater_of_marks hmarks] at hle
  exact UInt64.le_zero_iff.mp hle

theorem stamped_loggable {byte : UInt8} (hbyte : byte = 255 ∨ byte = 254) :
    (stamped byte).Loggable ∧ 0 < (stamped byte).seq := by
  rcases hbyte with rfl | rfl <;> decide +kernel

/-- A stamped op served by an engine of interval two goes to the end of the log. -/
theorem serveAll_stamped {byte : UInt8} (hbyte : byte = 255 ∨ byte = 254) (other : Disk) :
    Engine.serveAll [(Faults.clean, (0, stamped byte))] (Engine.create 2 : Engine S) other
      = some { other with oplog := some (other.log ++ encodeRecord 0 (stamped byte).encode) } := by
  have hnew : (dedup S).fresh (Engine.create 2 : Engine S).toCore (0, stamped byte) := by
    change Core.init.highWater _ < (stamped byte).seq
    rw [Core.highWater_of_marks rfl]
    exact (stamped_loggable hbyte).2
  have hnotdue : ¬ max (2 : UInt64) 1 ≤ 0 + 1 := by decide
  rw [Engine.serveAll, deliver_of_fresh hnew]
  dsimp only [Faults.clean, append]
  rw [snapshotIfDue_of_not_due hnotdue]
  rfl

/-- From an empty directory, the stamped op is recovered. -/
theorem mark_stamped {byte : UInt8} (hbyte : byte = 255 ∨ byte = 254) :
    ({ Disk.empty with
      oplog := some (Disk.empty.log ++ encodeRecord 0 (stamped byte).encode) }.recovered
        S).applied[(stamped byte).client]? = some (stamped byte).seq := by
  obtain ⟨hloggable, hseq⟩ := stamped_loggable hbyte
  have hmark : ¬ (stamped byte).seq ≤ (Core.init : Core S).highWater (stamped byte).client := by
    rw [Core.highWater_of_marks rfl]
    exact UInt64.not_le.mpr hseq
  rw [Disk.log, @recovered_append S _ Disk.empty rfl 0 _ hloggable, recovered_empty,
    ← snd_applyDedup, Core.applyDedup, if_neg hmark]
  exact Std.ExtTreeMap.getElem?_insert_self

/-- An op served over a partial record is swallowed by it. -/
theorem Disk.CreatesFresh.tornTail_eq_nil (hfresh : disk.CreatesFresh S) : tornTail disk = [] := by
  obtain ⟨-, hmarks, hcovered⟩ := hfresh.untouched
  by_contra hne
  have htorn : split (tornTail disk) = ([], tornTail disk) := split_split_torn disk.log
  -- a stamp that the partial record does not carry
  obtain ⟨byte, hbyte, hfirst⟩ : ∃ byte : UInt8, (byte = 255 ∨ byte = 254)
      ∧ ((tornTail disk).drop 13).take 12 ≠ List.replicate 12 byte := by
    by_cases hcarried : ((tornTail disk).drop 13).take 12 = List.replicate 12 255
    · exact ⟨254, .inr rfl, by rw [hcarried]; decide⟩
    · exact ⟨255, .inl rfl, hcarried⟩
  obtain ⟨clean, hclean, hsame⟩ := hfresh 2 _ _ (serveAll_stamped hbyte disk)
  rw [serveAll_stamped hbyte] at hclean
  obtain rfl := Option.some.inj hclean
  have hboth := (hsame 2).2
  rw [recover_toCore, recover_toCore] at hboth
  have hmark := @mark_stamped S _ byte hbyte
  rw [← hboth] at hmark
  obtain hloaded | ⟨record, hrecord, hclient, hseq⟩ := mark_deliverAll hmark
  · change (Engine.loaded disk : Core S).applied[_]? = _ at hloaded
    rw [hmarks, Std.ExtTreeMap.getElem?_empty] at hloaded
    cases hloaded
  · change record ∈ decoded (disk.log ++ encodeRecord 0 (stamped byte).encode) at hrecord
    rw [decoded, split_append_torn, List.filterMap_append] at hrecord
    rcases List.mem_append.mp hrecord with hold | hnew
    · have hzero := hcovered record hold
      have hpositive := (stamped_loggable hbyte).2
      rw [← hseq, hzero] at hpositive
      exact UInt64.not_lt_zero hpositive
    · have hplain : byte ≠ 0 ∧ byte ≠ 3 := by rcases hbyte with rfl | rfl <;> decide
      exact not_stamped_behind_torn htorn hne hplain hfirst hnew ⟨hclient, hseq⟩

/-- **Creation is fresh** exactly on the directories that have nothing to bring back. -/
theorem createsFresh_iff_blank (disk : Disk) : disk.CreatesFresh S ↔ disk.Blank S := by
  constructor
  · intro hfresh
    obtain ⟨hstate, hmarks, hcovered⟩ := hfresh.untouched
    exact ⟨hstate, hmarks, hcovered, hfresh.tornTail_eq_nil⟩
  · exact Disk.Blank.createsFresh

/-- An earlier run has left client 1 at seq 5. The created engine acknowledges the client's seq 1, and
the next recovery has the old value and suppresses the new op. -/
theorem earlier_run_shows_through :
    let old := ((Engine.create 100 : Engine KvStore).deliver Faults.clean Disk.empty 5
      ⟨1, 5, .set "k" [65]⟩).2.2
    let created := (Engine.create 100 : Engine KvStore).deliver Faults.clean old 9
      ⟨1, 1, .set "k" [66]⟩
    let recovered : Engine KvStore := Engine.recover created.2.2 100
    ¬ old.CreatesFresh KvStore ∧ created.1 = .ok .ok
      ∧ recovered.state.map["k"]? = some [65] ∧ recovered.highWater 1 = 5 := by
  refine ⟨fun hfresh => ?_, by decide +kernel⟩
  have hzero := hfresh.untouched.2.2 (5, ⟨1, 5, .set "k" [65]⟩) (by decide +kernel)
  exact absurd hzero (by decide)

end OneBarrier
