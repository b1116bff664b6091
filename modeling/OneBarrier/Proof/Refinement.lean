import OneBarrier.Stages
import OneBarrier.Proof.Spec
import OneBarrier.Proof.Coherence
import OneBarrier.Lib.Decimal
import OneBarrier.Lib.Run

/-!
# The engine refines its specification

One counter, incremented by one, with every client's ops in order. Seen through what has been
appended, an op that is only applied has not happened, and a log behind the snapshot that covers it
is empty: appending is the specification's delivery and renaming its snapshot, and the steps around
them change nothing.
-/

namespace OneBarrier

open Wire Durable Text Utf8 LawfulStateMachine

/-! ### The abstraction -/

/-- The counter as `INCR` reads it. -/
def counter (key : String) (core : Core KvStore) : Int := ((core.state.getInt key).getD 0).toInt

def Record.spec (record : Record) : Spec.Op UInt32 :=
  { client := record.2.client, seq := record.2.seq.toNat }

namespace Process

/-- The live core, without an op whose record is not written yet. -/
def committed (process : Process) : Option (Core KvStore) :=
  process.engine.map fun engine =>
    match process.stage with
    | .applied before _ _ => before
    | .idle | .due | .renamed => engine.toCore

/-- The ops whose append is done. -/
def acked (process : Process) : Finset (Spec.Op UInt32) :=
  (process.appended.map Record.spec).toFinset

/-- The log is what stands above the snapshot's high-water marks. -/
def abstraction (key : String) (process : Process) : Spec.State UInt32 where
  value := (process.committed.map (counter key)).getD 0
  hw client := (process.committed.map fun core => (core.highWater client).toNat).getD 0
  applied := if process.engine.isSome then process.acked else ∅
  acked := process.acked
  durLog := (process.disk.records.filter fun record =>
    (Engine.loaded process.disk : Core KvStore).highWater record.2.client < record.2.seq).map Record.spec
  snapVal := counter key (Engine.loaded process.disk)
  snapHW client := ((Engine.loaded process.disk : Core KvStore).highWater client).toNat
  snapApplied := process.acked.filter fun op =>
    op.seq ≤ ((Engine.loaded process.disk : Core KvStore).highWater op.client).toNat
  crashed := process.engine.isNone

/-- Increments of one counter, each client's in order. -/
def InScope (key : String) (process : Process) : Action → Prop
  | .apply _ op => op.kind = .incr key 1 ∧ ∀ engine ∈ process.engine,
      op.seq.toNat ≤ (engine.highWater op.client).toNat + 1
  | .append | .rename | .remove _ | .crash | .recover _ => True

/-- The counter can take a new increment without wrapping, and a core that is written as a snapshot fits
its format. -/
def InLimits (key : String) (process : Process) : Action → Prop
  | .apply _ op => ∀ engine ∈ process.engine,
      engine.highWater op.client < op.seq → counter key engine.toCore < 2 ^ 63 - 1
  | .rename => ∀ engine ∈ process.engine, engine.toCore.Fits
  | .append | .remove _ | .crash | .recover _ => True

instance (key : String) (process : Process) (action : Action) :
    Decidable (process.InScope key action) := by
  cases action <;> unfold InScope <;> infer_instance

instance (key : String) (process : Process) (action : Action) :
    Decidable (process.InLimits key action) := by
  cases action <;> unfold InLimits <;> infer_instance

end Process

/-! ### Counting -/

section Counting

variable {key : String} {records : List Record} {record : Record}

theorem asInt_showI64 (value : Int64) : KvStore.asInt (asBytes (showI64 value)) = some value := by
  rw [KvStore.asInt, fromUtf8_asBytes, Option.bind_some, trim_showI64, parseI64_showI64]

/-- An increment that does not wrap counts one up. -/
theorem counter_apply {core : Core KvStore} (hfresh : (dedup KvStore).fresh core record)
    (hkind : record.2.kind = .incr key 1) (hbound : counter key core < 2 ^ 63 - 1) :
    counter key ((dedup KvStore).apply core record) = counter key core + 1 := by
  have hstate : (((dedup KvStore).apply core record).state.getInt key)
      = some ((core.state.getInt key).getD 0 + 1) := by
    rw [state_apply hfresh]
    change (KvStore.apply core.state record.2).1.getInt key = _
    rw [KvStore.apply, hkind]
    change (core.state.map.insert key _)[key]?.bind KvStore.asInt = _
    rw [Std.ExtTreeMap.getElem?_insert_self, Option.bind_some, asInt_showI64]
  rw [counter] at hbound
  rw [counter, hstate, Option.getD_some, counter, Int64.toInt_add]
  have hlow := ((core.state.getInt key).getD 0).le_toInt
  exact Int.bmod_eq_of_le (by simp; omega) (by simp; omega)

theorem fresh_iff_spec {core : Core KvStore} :
    (dedup KvStore).fresh core record
      ↔ (core.highWater record.2.client).toNat < record.spec.seq := UInt64.lt_iff_toNat_lt

/-- In order, every op is taken: the core counts them and its marks are theirs. -/
theorem serial_inOrder (horder : Spec.InOrder (records.map Record.spec))
    (hkinds : ∀ record ∈ records, record.2.kind = .incr key 1) (hsmall : records.length < 2 ^ 63) :
    counter key (serial KvStore records) = records.length
      ∧ ∀ client, ((serial KvStore records).highWater client).toNat
        = Spec.highWater (records.map Record.spec) client := by
  induction records using List.reverseRecOn with
  | nil => exact ⟨rfl, fun client => rfl⟩
  | append_singleton records record ih =>
      rw [List.map_append, List.map_singleton] at horder
      rw [List.length_append, List.length_singleton] at hsmall
      obtain ⟨hfront, hseq⟩ := Spec.inOrder_concat.mp horder
      obtain ⟨hcount, hmarks⟩ := ih hfront
        (fun other hmem => hkinds other (List.mem_append_left _ hmem)) (by omega)
      have hfresh : (dedup KvStore).fresh (serial KvStore records) record := by
        rw [fresh_iff_spec, hmarks]
        rw [hseq]
        exact Nat.lt_succ_self _
      rw [serial_concat, Journal.Machine.deliver_of_fresh hfresh]
      refine ⟨?_, fun client => ?_⟩
      · rw [counter_apply hfresh (hkinds record (by simp)) (by omega), hcount]
        simp
      · rw [List.map_append, List.map_singleton, Spec.highWater_concat]
        change ((Core.applyDedup _ record.1 record.2).2.highWater client).toNat = _
        rw [Core.highWater_applyDedup client hfresh]
        by_cases hclient : record.2.client = client
        · subst hclient
          simp [Record.spec]
        · have hother : client ≠ record.spec.client := fun heq => hclient heq.symm
          rw [if_neg hclient, hmarks, Function.update_of_ne hother]

end Counting

/-! ### The simulation -/

namespace Process

variable {key : String} {process : Process}

/-- The op that is applied and not logged is the next of its client. -/
structure Pending (key : String) (appended : List Record) (engine : Engine KvStore)
    (before : Core KvStore) (ts : UInt64) (op : Op) : Prop where
  before_eq : before = serial KvStore appended
  engine_eq : engine.toCore = serial KvStore (appended ++ [(ts, op)])
  kind : op.kind = .incr key 1
  next : Spec.InOrder ((appended ++ [(ts, op)]).map Record.spec)
  small : appended.length + 1 < 2 ^ 63

/-- What holds between two steps. The snapshot covers the first `cut` records and the log holds those
from `kept` on: a log that is not removed reaches back behind the snapshot. -/
structure Tracks (key : String) (process : Process) (cut kept : Nat) : Prop where
  ordered : Spec.InOrder (process.appended.map Record.spec)
  kinds : ∀ record ∈ process.appended, record.2.kind = .incr key 1
  small : process.appended.length < 2 ^ 63
  kept_le : kept ≤ cut
  cut_le : cut ≤ process.appended.length
  loaded : Engine.loaded process.disk = serial KvStore (process.appended.take cut)
  records : process.disk.records = process.appended.drop kept
  whole : tornTail process.disk = []
  covered : process.stage = .renamed → cut = process.appended.length
  down : process.engine = none → process.stage = .idle
  live : ∀ engine ∈ process.engine,
    match process.stage with
    | .applied before ts op => Pending key process.appended engine before ts op
    | .idle | .due | .renamed => engine.toCore = serial KvStore process.appended

variable {cut kept : Nat}

theorem Tracks.committed_eq (htracks : process.Tracks key cut kept) :
    process.committed = process.engine.map fun _ => serial KvStore process.appended := by
  cases hengine : process.engine with
  | none => rw [committed, hengine]; rfl
  | some engine =>
      have hlive := htracks.live engine hengine
      rw [committed, hengine, Option.map_some, Option.map_some]
      cases hstage : process.stage with
      | applied before ts op =>
          rw [hstage] at hlive
          exact congrArg some hlive.before_eq
      | idle => rw [hstage] at hlive; exact congrArg some hlive
      | due => rw [hstage] at hlive; exact congrArg some hlive
      | renamed => rw [hstage] at hlive; exact congrArg some hlive

/-- The abstraction is the view of what has been appended. -/
theorem Tracks.abstraction_eq (htracks : process.Tracks key cut kept) :
    process.abstraction key
      = Spec.view (process.appended.map Record.spec) cut process.engine.isSome := by
  obtain ⟨hcount, hmarks⟩ := serial_inOrder htracks.ordered htracks.kinds htracks.small
  have horder := htracks.ordered
  have hsplit : process.appended.map Record.spec
      = (process.appended.take cut).map Record.spec ++ (process.appended.drop cut).map Record.spec := by
    rw [← List.map_append, List.take_append_drop]
  have hsplitOrder := horder
  rw [hsplit] at hsplitOrder
  have hlength : (process.appended.take cut).length < 2 ^ 63 :=
    lt_of_le_of_lt (List.length_take_le' cut process.appended) htracks.small
  obtain ⟨hsnapCount, hsnapMarks⟩ := serial_inOrder hsplitOrder.front
    (fun record hmem => htracks.kinds record (List.mem_of_mem_take hmem)) hlength
  have habove : ∀ record ∈ process.appended,
      (Engine.loaded process.disk : Core KvStore).highWater record.2.client < record.2.seq
        ↔ record.spec ∈ (process.appended.drop cut).map Record.spec := by
    intro record hmem
    rw [htracks.loaded, ← hsplitOrder.above_iff (by rw [← hsplit]; exact List.mem_map_of_mem hmem),
      ← hsnapMarks]
    exact UInt64.lt_iff_toNat_lt
  have hback : ∀ record ∈ process.appended.drop cut,
      (Engine.loaded process.disk : Core KvStore).highWater record.2.client < record.2.seq :=
    fun record hmem => (habove record (List.mem_of_mem_drop hmem)).mpr (List.mem_map_of_mem hmem)
  have hfront : ∀ record ∈ process.appended.take cut,
      ¬ (Engine.loaded process.disk : Core KvStore).highWater record.2.client < record.2.seq := by
    intro record hmem
    have hcovered : ¬ (dedup KvStore).fresh (serial KvStore (process.appended.take cut)) record :=
      Journal.Machine.not_fresh_deliverAll_of_mem hmem
    rw [htracks.loaded]
    exact hcovered
  have hlog : process.disk.records.filter (fun record =>
      (Engine.loaded process.disk : Core KvStore).highWater record.2.client < record.2.seq)
        = process.appended.drop cut := by
    have hdrop : process.appended.drop kept
        = (process.appended.take cut).drop kept ++ process.appended.drop cut := by
      rw [← List.drop_append_of_le_length (by
        rw [List.length_take]
        have hkept := htracks.kept_le
        have hcut := htracks.cut_le
        omega), List.take_append_drop]
    rw [htracks.records, hdrop, List.filter_append, List.filter_eq_nil_iff.mpr, List.nil_append,
      List.filter_eq_self.mpr]
    · exact fun record hmem => decide_eq_true (hback record hmem)
    · intro record hmem hfresh
      exact hfront record (List.mem_of_mem_drop hmem) (of_decide_eq_true hfresh)
  ext1
  · rw [abstraction, htracks.committed_eq]
    cases process.engine with
    | none => rfl
    | some engine => simpa [Spec.view] using hcount
  · funext client
    rw [abstraction, htracks.committed_eq]
    cases process.engine with
    | none => rfl
    | some engine => exact hmarks client
  · rfl
  · rfl
  · change (process.disk.records.filter _).map Record.spec = _
    rw [hlog, List.map_drop]
    rfl
  · change counter key (Engine.loaded process.disk) = ((process.appended.map Record.spec).take cut).length
    rw [htracks.loaded, hsnapCount, ← List.map_take, List.length_map]
  · funext client
    change ((Engine.loaded process.disk : Core KvStore).highWater client).toNat
      = Spec.highWater ((process.appended.map Record.spec).take cut) client
    rw [htracks.loaded, hsnapMarks, List.map_take]
  · ext op
    change op ∈ process.acked.filter _ ↔ op ∈ ((process.appended.map Record.spec).take cut).toFinset
    rw [Finset.mem_filter, acked, List.mem_toFinset, List.mem_toFinset, ← List.map_take]
    constructor
    · rintro ⟨hmem, hle⟩
      obtain ⟨record, hrecord, rfl⟩ := List.mem_map.mp hmem
      rw [← List.take_append_drop cut process.appended] at hrecord
      obtain htake | hdrop := List.mem_append.mp hrecord
      · exact List.mem_map_of_mem htake
      · exact absurd (UInt64.lt_iff_toNat_lt.mp (hback record hdrop)) (Nat.not_lt.mpr hle)
    · intro hmem
      obtain ⟨record, hrecord, rfl⟩ := List.mem_map.mp hmem
      refine ⟨List.mem_map_of_mem (List.mem_of_mem_take hrecord), Nat.le_of_not_lt fun habove => ?_⟩
      exact hfront record hrecord (UInt64.lt_iff_toNat_lt.mpr habove)
  · change process.engine.isNone = !process.engine.isSome
    cases process.engine <;> rfl

/-- The step keeps the tracking, and is a step of the specification or none of it. -/
def Simulates (key : String) (process next : Process) : Prop :=
  (∃ cut kept, next.Tracks key cut kept) ∧
    (Spec.Next (process.abstraction key) (next.abstraction key)
      ∨ next.abstraction key = process.abstraction key)

/-- Nothing the specification looks at has changed. -/
theorem Tracks.stutter (htracks : process.Tracks key cut kept) {next : Process} (later : Nat)
    (hnext : next.Tracks key cut later) (happended : next.appended = process.appended)
    (hup : next.engine.isSome = process.engine.isSome) : Simulates key process next := by
  refine ⟨⟨cut, later, hnext⟩, .inr ?_⟩
  rw [hnext.abstraction_eq, htracks.abstraction_eq, happended, hup]

theorem loggable_of_incr {op : Op} (hkey : KeyFits key) (hkind : op.kind = .incr key 1) :
    op.Loggable := by
  obtain ⟨client, seq, kind⟩ := op
  obtain rfl : kind = .incr key 1 := hkind
  refine ⟨hkey, ?_⟩
  rw [PayloadFits, Op.encode]
  simp only [Op.key, Op.encodeBody, List.length_append, length_leBytes, length_lengthBytes,
    List.length_cons, List.length_nil]
  rw [KeyFits] at hkey
  omega

variable {engine : Engine KvStore}

theorem Tracks.apply (htracks : process.Tracks key cut kept) (hengine : process.engine = some engine)
    (hstage : process.stage = .idle) {ts : UInt64} {op : Op}
    (hscope : process.InScope key (.apply ts op)) (hlimits : process.InLimits key (.apply ts op)) :
    Simulates key process (process.apply engine ts op) := by
  have hlive : engine.toCore = serial KvStore process.appended := by
    have hlive := htracks.live engine hengine
    rwa [hstage] at hlive
  obtain ⟨hcount, hmarks⟩ := serial_inOrder htracks.ordered htracks.kinds htracks.small
  rw [Process.apply]
  by_cases hfresh : (dedup KvStore).fresh engine.toCore (ts, op)
  · rw [applyDedup_of_fresh hfresh]
    have hserial : (dedup KvStore).apply engine.toCore (ts, op)
        = serial KvStore (process.appended ++ [(ts, op)]) := by
      rw [serial_concat, ← hlive, Journal.Machine.deliver_of_fresh hfresh]
    have hbound := hlimits engine hengine hfresh
    have hseq := hscope.2 engine hengine
    rw [fresh_iff_spec] at hfresh
    rw [hlive, hcount] at hbound
    rw [hlive, hmarks] at hseq hfresh
    have hpending : Pending key process.appended
        { engine with
          toCore := (dedup KvStore).apply engine.toCore (ts, op)
          stats := { engine.stats with applied := engine.stats.applied + 1 } } engine.toCore ts op := by
      refine ⟨hlive, hserial, hscope.1, ?_, by omega⟩
      rw [List.map_append, List.map_singleton]
      exact Spec.inOrder_concat.mpr ⟨htracks.ordered, le_antisymm hseq hfresh⟩
    refine htracks.stutter kept ?_ rfl (by rw [hengine]; rfl)
    exact
      { htracks with
        covered := nofun
        down := nofun
        live := fun other hother => by
          obtain rfl := Option.some.inj hother
          exact hpending }
  · rw [applyDedup_of_not_fresh hfresh]
    refine htracks.stutter kept ?_ rfl (by rw [hengine]; rfl)
    exact
      { htracks with
        down := nofun
        live := fun other hother => by
          obtain rfl := Option.some.inj hother
          change match process.stage with
            | .applied before ts op => _
            | .idle | .due | .renamed => _
          rw [hstage]
          exact hlive }

theorem Tracks.append (htracks : process.Tracks key cut kept) (hkey : KeyFits key)
    (hengine : process.engine = some engine) {before : Core KvStore} {ts : UInt64} {op : Op}
    (hstage : process.stage = .applied before ts op) :
    Simulates key process (process.append engine ts op) := by
  have hpending : Pending key process.appended engine before ts op := by
    have hlive := htracks.live engine hengine
    rwa [hstage] at hlive
  obtain ⟨hstore, hwhole⟩ := store_append KvStore htracks.whole ts (loggable_of_incr hkey hpending.kind)
  have hrecords : (process.append engine ts op).disk.records = process.disk.records ++ [(ts, op)] :=
    congrArg Journal.Store.log hstore
  have hlength : (process.appended ++ [(ts, op)]).length = process.appended.length + 1 := by simp
  have hnext : (process.append engine ts op).Tracks key cut kept :=
    { ordered := hpending.next
      kinds := List.forall_mem_append.mpr ⟨htracks.kinds, by simpa using hpending.kind⟩
      small := hlength ▸ hpending.small
      kept_le := htracks.kept_le
      cut_le := hlength ▸ Nat.le_succ_of_le htracks.cut_le
      loaded := by
        change Engine.loaded process.disk = serial KvStore ((process.appended ++ [(ts, op)]).take cut)
        rw [List.take_append_of_le_length htracks.cut_le, htracks.loaded]
      records := by
        change (process.append engine ts op).disk.records = (process.appended ++ [(ts, op)]).drop kept
        rw [hrecords, htracks.records,
          List.drop_append_of_le_length (htracks.kept_le.trans htracks.cut_le)]
      whole := hwhole
      covered := by
        intro hrenamed
        simp only [Process.append] at hrenamed
        split at hrenamed <;> cases hrenamed
      down := nofun
      live := by
        intro other hother
        obtain rfl := Option.some.inj hother
        simp only [Process.append]
        split
        · rename_i heq
          split at heq <;> cases heq
        all_goals exact hpending.engine_eq }
  refine ⟨⟨cut, kept, hnext⟩, .inl (.inl ⟨Record.spec (ts, op), ?_⟩)⟩
  rw [htracks.abstraction_eq, hnext.abstraction_eq, hengine]
  have horder := hpending.next
  change Spec.Deliver _ (Spec.view _ cut true)
    (Spec.view ((process.appended ++ [(ts, op)]).map Record.spec) cut true)
  rw [List.map_append, List.map_singleton] at horder ⊢
  exact Spec.deliver_view (by simpa using htracks.cut_le) horder

theorem Tracks.rename (htracks : process.Tracks key cut kept) (hkey : KeyFits key)
    (hengine : process.engine = some engine) (hstage : process.stage = .idle ∨ process.stage = .due)
    (hlimits : process.InLimits key .rename) : Simulates key process (process.rename engine) := by
  have hlive : engine.toCore = serial KvStore process.appended := by
    have hlive := htracks.live engine hengine
    obtain hstage | hstage := hstage <;> rwa [hstage] at hlive
  have hencodable : Encodable engine.toCore.state := by
    rw [hlive]
    exact encodable_serial fun record hmem => (loggable_of_incr hkey (htracks.kinds record hmem)).1
  have hloaded : Engine.loaded (process.rename engine).disk = serial KvStore process.appended := by
    rw [← hlive]
    exact loadSnapshot_encodeSnapshot hencodable (hlimits engine hengine) _
  have hnext : (process.rename engine).Tracks key process.appended.length kept :=
    { htracks with
      kept_le := htracks.kept_le.trans htracks.cut_le
      cut_le := le_rfl
      loaded := by
        change _ = serial KvStore (process.appended.take process.appended.length)
        rw [List.take_length]
        exact hloaded
      covered := fun _ => rfl
      down := fun hdown => by
        change process.engine = none at hdown
        rw [hengine] at hdown
        cases hdown
      live := fun other hother => by
        change process.engine = some other at hother
        rw [hengine] at hother
        obtain rfl := Option.some.inj hother
        exact hlive }
  refine ⟨⟨process.appended.length, kept, hnext⟩, .inl (.inr (.inl ?_))⟩
  have hsnapshot : Spec.Snapshot (Spec.view (process.appended.map Record.spec) cut true)
      (Spec.view (process.appended.map Record.spec) (process.appended.map Record.spec).length true) :=
    Spec.snapshot_view cut
  rw [List.length_map] at hsnapshot
  rw [htracks.abstraction_eq, hnext.abstraction_eq]
  change Spec.Snapshot (Spec.view _ _ process.engine.isSome) (Spec.view _ _ process.engine.isSome)
  rw [hengine]
  exact hsnapshot

theorem Tracks.remove (htracks : process.Tracks key cut kept) (hengine : process.engine = some engine)
    (hstage : process.stage = .renamed) (fails : Bool) :
    Simulates key process (process.remove engine fails) := by
  have hlive : engine.toCore = serial KvStore process.appended := by
    have hlive := htracks.live engine hengine
    rwa [hstage] at hlive
  have hcut := htracks.covered hstage
  refine htracks.stutter (if fails then kept else cut) ?_ rfl (by rw [hengine]; rfl)
  cases fails with
  | true =>
      exact
        { htracks with
          covered := nofun
          down := nofun
          live := fun other hother => by
            obtain rfl := Option.some.inj hother
            exact hlive }
  | false =>
      exact
        { htracks with
          kept_le := le_rfl
          records := by
            change [] = process.appended.drop cut
            rw [hcut, List.drop_length]
          whole := rfl
          covered := nofun
          down := nofun
          live := fun other hother => by
            obtain rfl := Option.some.inj hother
            exact hlive }

theorem Tracks.crash (htracks : process.Tracks key cut kept) (hengine : process.engine = some engine) :
    Simulates key process { process with engine := none, stage := .idle } := by
  have hnext : Tracks key { process with engine := none, stage := .idle } cut kept :=
    { htracks with covered := nofun, down := fun _ => rfl, live := nofun }
  refine ⟨⟨cut, kept, hnext⟩, .inl (.inr (.inr (.inl ?_)))⟩
  rw [htracks.abstraction_eq, hnext.abstraction_eq, hengine]
  exact Spec.crash_view cut

theorem Tracks.recovered (htracks : process.Tracks key cut kept) :
    process.disk.recovered KvStore = serial KvStore process.appended := by
  have hdrop : process.appended.drop kept
      = (process.appended.take cut).drop kept ++ process.appended.drop cut := by
    rw [← List.drop_append_of_le_length (by
      rw [List.length_take]
      have hkept := htracks.kept_le
      have hcut := htracks.cut_le
      omega), List.take_append_drop]
  have hcovered : (dedup KvStore).deliverAll (serial KvStore (process.appended.take cut))
      ((process.appended.take cut).drop kept) = serial KvStore (process.appended.take cut) :=
    Journal.Machine.deliverAll_of_not_fresh fun record hmem =>
      Journal.Machine.not_fresh_deliverAll_of_mem (List.mem_of_mem_drop hmem)
  change (dedup KvStore).deliverAll (Engine.loaded process.disk) process.disk.records = _
  rw [htracks.loaded, htracks.records, hdrop, Journal.Machine.deliverAll_append, hcovered, serial,
    ← Journal.Machine.deliverAll_append, List.take_append_drop]
  rfl

theorem Tracks.recover (htracks : process.Tracks key cut kept) (hdown : process.engine = none)
    (interval : UInt64) :
    Simulates key process
      { process with engine := some (Engine.recover process.disk interval) } := by
  have hstage := htracks.down hdown
  have hnext : Tracks key { process with engine := some (Engine.recover process.disk interval) }
      cut kept :=
    { htracks with
      down := nofun
      live := fun other hother => by
        obtain rfl := Option.some.inj hother
        change match process.stage with
          | .applied before ts op => _
          | .idle | .due | .renamed => _
        rw [hstage]
        exact (recover_toCore process.disk interval).trans htracks.recovered }
  refine ⟨⟨cut, kept, hnext⟩, .inl (.inr (.inr (.inr ?_)))⟩
  rw [htracks.abstraction_eq, hnext.abstraction_eq, hdown]
  exact Spec.recover_view htracks.ordered

/-- **Every step** within the limits is a delivery, a snapshot, a crash or a recovery of the
specification, or changes nothing there. -/
theorem Tracks.step (htracks : process.Tracks key cut kept) (hkey : KeyFits key) {action : Action}
    (hscope : process.InScope key action) (hlimits : process.InLimits key action) :
    Simulates key process (process.step action) := by
  have hnone : Simulates key process process := htracks.stutter kept htracks rfl rfl
  unfold Process.step
  split
  · rename_i engine ts op hengine hstage
    exact htracks.apply hengine hstage hscope hlimits
  · rename_i engine before ts op hengine hstage
    exact htracks.append hkey hengine hstage
  · rename_i engine hengine hstage
    exact htracks.rename hkey hengine (.inl hstage) hlimits
  · rename_i engine hengine hstage
    exact htracks.rename hkey hengine (.inr hstage) hlimits
  · rename_i engine fails hengine hstage
    exact htracks.remove hengine hstage fails
  · rename_i engine hengine
    exact htracks.crash hengine
  · rename_i interval hdown
    exact htracks.recover hdown interval
  · exact hnone

/-- The steps of a run: increments of the counter, within the limits. -/
def Counting (key : String) (process : Process) (action : Action) : Prop :=
  process.InScope key action ∧ process.InLimits key action

/-- **Every run** within the limits keeps the tracking, and leads to what the specification can reach. -/
theorem tracks_run (hkey : KeyFits key) {actions : List Action}
    (hrun : Run.Guarded step (Counting key) process actions)
    (htracks : ∃ cut kept, process.Tracks key cut kept) :
    (∃ cut kept, (Run.run step process actions).Tracks key cut kept)
      ∧ Relation.ReflTransGen Spec.Next (process.abstraction key)
        ((Run.run step process actions).abstraction key) := by
  have hstep : ∀ (process : Process) action, Counting key process action →
      (∃ cut kept, process.Tracks key cut kept) → Simulates key process (process.step action) := by
    rintro process action ⟨hscope, hlimits⟩ ⟨cut, kept, htracks⟩
    exact htracks.step hkey hscope hlimits
  exact ⟨Run.invariant_run _ (fun process action hguard hinv => (hstep process action hguard hinv).1)
      hrun htracks,
    Run.reaches_run (abstraction key) _
      (fun process action hguard hinv => (hstep process action hguard hinv).1)
      (fun process action hguard hinv => (hstep process action hguard hinv).2) hrun htracks⟩

theorem tracks_start (key : String) (interval : UInt64) : (start interval).Tracks key 0 0 where
  ordered := Spec.inOrder_nil
  kinds := nofun
  small := (by decide : 0 < 2 ^ 63)
  kept_le := le_rfl
  cut_le := le_rfl
  loaded := rfl
  records := rfl
  whole := rfl
  covered := nofun
  down := nofun
  live engine hengine := by
    obtain rfl := Option.some.inj hengine
    rfl

end Process

/-- **The engine refines the specification**: within the limits every step of a run is one of the
specification's or changes nothing there, and its four properties hold in every state of the run. -/
theorem engine_refines_spec {key : String} (hkey : KeyFits key) {interval : UInt64}
    {actions : List Action}
    (hrun : Run.Guarded Process.step
      (fun process action => process.InScope key action ∧ process.InLimits key action)
      (Process.start interval) actions) :
    let view := fun front => (Run.run Process.step (Process.start interval) front).abstraction key
    view [] = Spec.init
      ∧ (∀ front action back, actions = front ++ action :: back →
        Spec.Next (view front) (view (front ++ [action])) ∨ view (front ++ [action]) = view front)
      ∧ Spec.Reachable (view actions) ∧ Spec.ExactlyOnce (view actions)
      ∧ Spec.NoLostAck (view actions) ∧ Spec.SnapshotConsistent (view actions)
      ∧ Spec.AckedDurable (view actions) := by
  have hinit : (Process.start interval).abstraction key = Spec.init :=
    (Process.tracks_start key interval).abstraction_eq
  have hstart : ∃ cut kept, (Process.start interval).Tracks key cut kept :=
    ⟨0, 0, Process.tracks_start key interval⟩
  intro view
  refine ⟨hinit, fun front action back hactions => ?_, ?_⟩
  · rw [hactions, Run.guarded_append] at hrun
    obtain ⟨⟨cut, kept, htracks⟩, -⟩ := Process.tracks_run hkey hrun.1 hstart
    obtain ⟨hscope, hlimits⟩ := hrun.2.1
    have hsimulates := (htracks.step hkey hscope hlimits).2
    have hnext : view (front ++ [action])
        = ((Run.run Process.step (Process.start interval) front).step action).abstraction key := by
      simp only [view, Run.run_append, Run.run_cons, Run.run_nil]
    rw [hnext]
    exact hsimulates
  · have hreachable : Spec.Reachable (view actions) := by
      have hreaches := (Process.tracks_run hkey hrun hstart).2
      rwa [hinit] at hreaches
    have hsafe := Spec.safe_of_reachable hreachable
    exact ⟨hreachable, hsafe.exactlyOnce, hsafe.noLostAck, hsafe.snapshotConsistent,
      hsafe.ackedDurable⟩

/-- Two clients, a crash behind an op that is only applied and one behind a renamed snapshot. -/
def crashingRun : List Action :=
  let incr := fun client seq => (⟨client, seq, .incr "n" 1⟩ : Op)
  [.apply 5 (incr 1 1), .append, .apply 6 (incr 2 1), .crash, .recover 2, .apply 6 (incr 1 1),
    .apply 7 (incr 2 1), .append, .rename, .crash, .recover 2, .apply 8 (incr 1 2), .append]

theorem engine_refines_spec_crashingRun :
    let process := Run.run Process.step (Process.start 2) crashingRun
    (process.abstraction "n").value = 3 ∧ Spec.ExactlyOnce (process.abstraction "n")
      ∧ Spec.NoLostAck (process.abstraction "n") := by
  have hrun : Run.Guarded Process.step (fun process action =>
      process.InScope "n" action ∧ process.InLimits "n" action) (Process.start 2) crashingRun := by
    decide +kernel
  obtain ⟨-, -, -, hexactly, hlost, -⟩ := engine_refines_spec (by decide : KeyFits "n") hrun
  beta_reduce at hexactly hlost
  refine ⟨by decide +kernel, hexactly, ?_⟩
  assumption

/-- One increment of a counter, then a crash. -/
def incrThenCrash (key : String) : List Action :=
  [.apply 5 ⟨1, 1, .incr key 1⟩, .append, .crash, .recover 1000]

theorem run_incrThenCrash (key : String) :
    let disk : Disk :=
      { oplog := some (encodeRecord 5 (Op.encode ⟨1, 1, .incr key 1⟩)), snapshot := none }
    Run.run Process.step (Process.start 1000) (incrThenCrash key)
      = { disk, engine := some (Engine.recover disk 1000), stage := .idle,
          appended := [(5, ⟨1, 1, .incr key 1⟩)] } := by
  have hfresh : (dedup KvStore).fresh Core.init (5, ⟨1, 1, .incr key 1⟩) := by
    change (0 : UInt64) < 1
    decide
  have happly : (Process.start 1000).step (.apply 5 ⟨1, 1, .incr key 1⟩)
      = { disk := Disk.empty
          engine := some ((Engine.create 1000).taken 5 ⟨1, 1, .incr key 1⟩)
          stage := .applied Core.init 5 ⟨1, 1, .incr key 1⟩
          appended := [] } := by
    have hstep : (Process.start 1000).step (.apply 5 ⟨1, 1, .incr key 1⟩)
        = (Process.start 1000).apply (Engine.create 1000) 5 ⟨1, 1, .incr key 1⟩ := rfl
    have htake : (Engine.create 1000 : Engine KvStore).applyDedup 5 ⟨1, 1, .incr key 1⟩ = _ :=
      applyDedup_of_fresh hfresh
    rw [hstep, Process.apply, htake]
    rfl
  simp only [incrThenCrash, Run.run_cons, Run.run_nil, happly]
  rfl

/-- A key that is one byte too long for the log comes back without that byte. -/
theorem counter_recover_longKey (size : Nat) (hsize : size = 2 ^ 16 - 1) :
    counter (longKey (size + 1)) (Engine.recover
      { oplog := some (encodeRecord 5 (Op.encode ⟨1, 1, .incr (longKey (size + 1)) 1⟩)),
        snapshot := none } 1000 : Engine KvStore).toCore = 0 := by
  have hkey : asBytes (longKey (size + 1)) = asBytes (longKey size) ++ [97] := by
    rw [longKey, longKey, asBytes_replicate, asBytes_replicate, List.replicate_succ']
  have hlength : (asBytes (longKey size)).length = 2 ^ 16 - 1 := by
    rw [longKey, asBytes_replicate, List.length_replicate, hsize]
  have hne : longKey size ≠ longKey (size + 1) := by
    intro heq
    have hlengths := congrArg (fun key => (asBytes key).length) heq
    simp [hkey] at hlengths
  obtain ⟨other, hdecode⟩ : ∃ other, Op.decode (Op.encode ⟨1, 1, .incr (longKey (size + 1)) 1⟩)
      = some ⟨1, 1, .incr (longKey size) other⟩ := decode_encode_incr_of_long_key hkey hlength 1
  have hfits : PayloadFits (Op.encode ⟨1, 1, .incr (longKey (size + 1)) 1⟩) := by
    rw [PayloadFits, Op.encode]
    simp only [Op.key, Op.encodeBody, List.length_append, length_leBytes, length_lengthBytes,
      List.length_cons, List.length_nil, hkey, hlength]
    decide
  have hfresh : (dedup KvStore).fresh Core.init (5, ⟨1, 1, .incr (longKey size) other⟩) := by
    change (0 : UInt64) < 1
    decide
  rw [recover_toCore, recovered_of_split_eq_singleton (congrArg Prod.fst (split_encodeRecord hfits)),
    hdecode]
  change ((((dedup KvStore).deliver Core.init (5, ⟨1, 1, .incr (longKey size) other⟩)).state.getInt
    (longKey (size + 1))).getD 0).toInt = 0
  rw [Journal.Machine.deliver_of_fresh hfresh, state_apply hfresh]
  change ((((∅ : BTreeMap String Bytes).insert (longKey size) _)[longKey (size + 1)]?.bind
    KvStore.asInt).getD 0).toInt = 0
  rw [Std.ExtTreeMap.getElem?_insert, if_neg (by simpa using hne)]
  rfl

/-- The op is acknowledged and the counter is back at zero: no set of applied ops has as many
members as the counter says and the acknowledged op among them. -/
theorem long_counter_lost :
    let key := longKey (2 ^ 16)
    let process := Run.run Process.step (Process.start 1000) (incrThenCrash key)
    Run.Guarded Process.step (Process.InScope key) (Process.start 1000) (incrThenCrash key)
      ∧ process.stage = .idle ∧ ∃ engine, process.engine = some engine
        ∧ ¬ ∃ applied : Finset (Spec.Op UInt32),
          counter key engine.toCore = applied.card ∧ process.acked ⊆ applied := by
  have hcounter := counter_recover_longKey (2 ^ 16 - 1) rfl
  generalize hkey : longKey (2 ^ 16 - 1 + 1) = key at hcounter
  intro name process
  have hprocess : process = _ := run_incrThenCrash key
  refine ⟨⟨⟨rfl, ?_⟩, trivial, trivial, trivial, trivial⟩, by rw [hprocess], _, by rw [hprocess], ?_⟩
  · intro engine hengine
    obtain rfl := Option.some.inj hengine
    change (1 : Nat) ≤ (0 : Nat) + 1
    decide
  · rintro ⟨applied, hcard, hacked⟩
    rw [hcounter] at hcard
    have hmem : (⟨1, 1⟩ : Spec.Op UInt32) ∈ process.acked := by
      rw [hprocess]
      exact List.mem_toFinset.mpr List.mem_cons_self
    have hpos := Finset.card_pos.mpr ⟨_, hacked hmem⟩
    omega

end OneBarrier
