import OneBarrier.Proof.Coherence

/-!
# What `deliver` answers

Every appended op was new when it was appended, so no `(client, seq)` pair is appended twice, and
the output of an acknowledged op is the one the serial run over the appended ops gives it. Crashes
and snapshots leave no trace in the outputs.
-/

namespace OneBarrier

open Wire Durable

variable {S : Type} [StateMachine S]

/-- The pair an op is deduplicated by. -/
def Record.key (record : Record) : UInt32 × UInt64 := (record.2.client, record.2.seq)

theorem fresh_congr {core : Core S} {record other : Record} (hkey : record.key = other.key) :
    (dedup S).fresh core record ↔ (dedup S).fresh core other := by
  obtain ⟨hclient, hseq⟩ := Prod.mk.inj hkey
  simp only [dedup, hclient, hseq]

theorem Core.outputs_append (core : Core S) (before rest : List Record) :
    core.outputs (before ++ rest)
      = core.outputs before ++ ((dedup S).deliverAll core before).outputs rest := by
  induction before generalizing core with
  | nil => rfl
  | cons record before ih =>
      rw [List.cons_append, Core.outputs, ih, snd_applyDedup, Core.outputs, List.cons_append,
        Journal.Machine.deliverAll_cons, ← snd_applyDedup]

theorem Core.length_outputs (core : Core S) (records : List Record) :
    (core.outputs records).length = records.length := by
  induction records generalizing core with
  | nil => rfl
  | cons record records ih => rw [Core.outputs, List.length_cons, ih, List.length_cons]

namespace History

/-- What the appended ops and the outputs returned so far have to do with each other. -/
structure Observed (history : History S) : Prop where
  keys : (history.appended.map Record.key).Nodup
  state : (serial S history.appended).state
    = history.appended.foldl (fun state record => (StateMachine.apply state record.2).1)
        StateMachine.default
  sublist : (history.acked.map Prod.fst).Sublist history.appended
  output : ∀ entry ∈ history.acked, ∃ index : Nat, history.appended[index]? = some entry.1
    ∧ ((Core.init : Core S).outputs history.appended)[index]? = some (some entry.2)
  covered : ∀ record ∈ history.appended,
    (∃ out, (record, out) ∈ history.acked) ∨ record ∈ history.inFlight

variable {history : History S}

theorem Observed.congr {next : History S} (hobserved : history.Observed)
    (happended : next.appended = history.appended) (hacked : next.acked = history.acked)
    (hinFlight : next.inFlight = history.inFlight) : next.Observed := by
  obtain ⟨hkeys, hstate, hsublist, houtput, hcovered⟩ := hobserved
  rw [← happended, ← hacked, ← hinFlight] at *
  exact ⟨hkeys, hstate, hsublist, houtput, hcovered⟩

variable (S) in
theorem observed_start (interval : UInt64) : (start interval : History S).Observed where
  keys := List.nodup_nil
  state := rfl
  sublist := List.Sublist.refl _
  output := by simp [start]
  covered := by simp [start]

theorem output_append {index : Nat} {appended more : List Record} {record : Record} {out : Output}
    (hrecord : appended[index]? = some record)
    (hout : ((Core.init : Core S).outputs appended)[index]? = some (some out)) :
    (appended ++ more)[index]? = some record
      ∧ ((Core.init : Core S).outputs (appended ++ more))[index]? = some (some out) := by
  obtain ⟨hindex, -⟩ := List.getElem?_eq_some_iff.mp hrecord
  rw [Core.outputs_append, List.getElem?_append_left hindex,
    List.getElem?_append_left (by rwa [Core.length_outputs])]
  exact ⟨hrecord, hout⟩

/-- A new op at the end of the appended ones. -/
theorem Observed.append (hobserved : history.Observed) {record : Record}
    (hfresh : (dedup S).fresh (serial S history.appended) record) :
    ((history.appended ++ [record]).map Record.key).Nodup
      ∧ (serial S (history.appended ++ [record])).state
        = (history.appended ++ [record]).foldl
            (fun state record => (StateMachine.apply state record.2).1) StateMachine.default
      ∧ ∀ entry ∈ history.acked, ∃ index : Nat,
        (history.appended ++ [record])[index]? = some entry.1
          ∧ ((Core.init : Core S).outputs (history.appended ++ [record]))[index]?
            = some (some entry.2) := by
  refine ⟨?_, ?_, ?_⟩
  · rw [List.map_append, List.map_singleton]
    refine List.nodup_append.mpr ⟨hobserved.keys, by simp, ?_⟩
    intro key hold new hnew hsame
    obtain ⟨other, hother, rfl⟩ := List.mem_map.mp hold
    obtain rfl := List.mem_singleton.mp hnew
    -- an appended op is covered, and so is any op with its key
    have hcovered : ¬ (dedup S).fresh (serial S history.appended) other :=
      Journal.Machine.not_fresh_deliverAll_of_mem hother
    exact hcovered ((fresh_congr hsame).mpr hfresh)
  · rw [serial_concat, Journal.Machine.deliver_of_fresh hfresh, state_apply hfresh,
      List.foldl_append, ← hobserved.state, List.foldl_cons, List.foldl_nil]
  · intro entry hentry
    obtain ⟨index, hrecord, hout⟩ := hobserved.output entry hentry
    exact ⟨index, output_append hrecord hout⟩

theorem Delivered.observed {record : Record} {next : History S}
    (hdelivered : history.Delivered record next) (hobserved : history.Observed) :
    next.Observed := by
  cases hdelivered with
  | duplicate engine hcovered hcore => exact hobserved.congr rfl rfl rfl
  | acked engine disk hfresh hcore hdisk =>
      obtain ⟨hkeys, hstate, houtput⟩ := hobserved.append hfresh
      refine ⟨hkeys, hstate, ?_, ?_, ?_⟩
      · simp only [List.map_append]
        exact hobserved.sublist.append (List.Sublist.refl _)
      · intro entry hentry
        rcases List.mem_append.mp hentry with hold | hnew
        · exact houtput entry hold
        · obtain rfl := List.mem_singleton.mp hnew
          refine ⟨history.appended.length, by simp, ?_⟩
          rw [Core.outputs_append, List.getElem?_append_right (Core.length_outputs _ _).le,
            Core.length_outputs, Nat.sub_self, Core.outputs]
          change some (((serial S history.appended).applyDedup _ _).1) = _
          rw [applyDedup_of_fresh hfresh]
      · intro other hother
        rcases List.mem_append.mp hother with hold | hnew
        · rcases hobserved.covered other hold with ⟨out, hout⟩ | hflight
          · exact .inl ⟨out, List.mem_append_left _ hout⟩
          · exact .inr hflight
        · obtain rfl := List.mem_singleton.mp hnew
          exact .inl ⟨_, List.mem_append_right _ (List.mem_singleton_self _)⟩
  | unacked disk hfresh hdisk =>
      obtain ⟨hkeys, hstate, houtput⟩ := hobserved.append hfresh
      refine ⟨hkeys, hstate, hobserved.sublist.trans (List.sublist_append_left _ _), houtput, ?_⟩
      intro other hother
      rcases List.mem_append.mp hother with hold | hnew
      · exact (hobserved.covered other hold).imp_right (List.mem_append_left _)
      · exact .inr (List.mem_append_right _ hnew)
  | lost disk hfresh hdisk =>
      refine ⟨hobserved.keys, hobserved.state, hobserved.sublist, hobserved.output, ?_⟩
      exact fun other hother => (hobserved.covered other hother).imp_right (List.mem_append_left _)

variable [LawfulStateMachine S]

theorem Observed.step (hobserved : history.Observed) (hcoherent : history.Coherent) {event : Event}
    (hsound : history.Sound event) : (history.step event).Observed := by
  cases event with
  | deliver faults ts op =>
      rw [History.step]
      cases hengine : history.engine with
      | none => exact hobserved
      | some engine => exact (delivered hcoherent hengine hsound).observed hobserved
  | snapshot fault =>
      rw [History.step]
      cases hengine : history.engine with
      | none => exact hobserved
      | some engine =>
          simp only [History.snapshot]
          split <;> exact hobserved.congr rfl rfl rfl
  | crash => exact hobserved.congr rfl rfl rfl
  | recover interval => exact hobserved.congr rfl rfl rfl

theorem observed_run {interval : UInt64} {events : List Event}
    (hsound : Run.Guarded step Sound (start interval : History S) events) :
    (Run.run step (start interval : History S) events).Coherent
      ∧ (Run.run step (start interval : History S) events).Observed := by
  refine Run.invariant_run (fun history => history.Coherent ∧ history.Observed) ?_ hsound
    ⟨coherent_start S interval, observed_start S interval⟩
  intro history event hstep hinv
  exact ⟨hinv.1.step hstep, hinv.2.step hinv.1 hstep⟩

omit [LawfulStateMachine S] in
/-- What was acknowledged is covered by whatever the directory recovers to. -/
theorem seq_le_highWater (hcoherent : history.Coherent) {record : Record}
    (hmem : record ∈ history.appended) (next : UInt64) :
    record.2.seq
      ≤ (Engine.recover history.disk next : Engine S).highWater record.2.client := by
  have hcovered : ¬ (dedup S).fresh (serial S history.appended) record :=
    Journal.Machine.not_fresh_deliverAll_of_mem hmem
  rw [recover_toCore, hcoherent.recovered]
  exact UInt64.not_lt.mp hcovered

/-- **No acknowledged op is lost**, however many crashes tear the log, while nothing is written
behind a partial record: the directory recovers to every appended op applied once, in order, and
every acknowledged op is one of them. -/
theorem acked_reflected {interval : UInt64} {events : List Event}
    (hsound : Run.Guarded step Sound (start interval : History KvStore) events) (next : UInt64) :
    let history := Run.run step (start interval : History KvStore) events
    let recovered : Engine KvStore := Engine.recover history.disk next
    recovered.state = history.appended.foldl
        (fun store record => (store.apply record.2).1) ⟨∅⟩
      ∧ ∀ entry ∈ history.acked, entry.1 ∈ history.appended
        ∧ entry.1.2.seq ≤ recovered.highWater entry.1.2.client := by
  intro history recovered
  obtain ⟨hcoherent, hobserved⟩ := observed_run hsound
  refine ⟨?_, ?_⟩
  · rw [recover_toCore, hcoherent.recovered]
    exact hobserved.state
  · intro entry hentry
    have hmem := hobserved.sublist.subset (List.mem_map_of_mem hentry)
    exact ⟨hmem, seq_le_highWater hcoherent hmem next⟩

theorem acked_reflected_after_torn_crash :
    let events := [Event.deliver Faults.clean 5 ⟨1, 1, .set "a" [65]⟩,
      .deliver ⟨.crash 9, .none⟩ 6 ⟨1, 2, .set "b" [66]⟩, .recover 1,
      .deliver Faults.clean 7 ⟨1, 3, .set "c" [67]⟩, .crash]
    let history := Run.run step (start 8 : History KvStore) events
    let recovered : Engine KvStore := Engine.recover history.disk 8
    recovered.state = history.appended.foldl
        (fun store record => (store.apply record.2).1) ⟨∅⟩
      ∧ history.acked.length = 2
      ∧ ∀ entry ∈ history.acked, entry.1 ∈ history.appended
        ∧ entry.1.2.seq ≤ recovered.highWater entry.1.2.client := by
  intro events history recovered
  have hsound : Run.Guarded step Sound (start 8 : History KvStore) events := by decide +kernel
  have hreflected := acked_reflected hsound 8
  exact ⟨hreflected.1, by decide +kernel, hreflected.2⟩

/-- The record that a torn write is followed by is read as the rest of the partial one: an
acknowledged op is gone after the next recovery. -/
theorem acked_lost_behind_torn_record :
    let lost : Op := ⟨2, 1, .set "b" [66]⟩
    let events := [Event.deliver ⟨.crash 20, .none⟩ 5 ⟨1, 1, .set "a" [65]⟩, .recover 8,
      .deliver Faults.clean 6 lost, .crash]
    let history := Run.run step (start 8 : History KvStore) events
    let recovered : Engine KvStore := Engine.recover history.disk 8
    (∀ event ∈ events, event.Torn) ∧ history.acked = [((6, lost), .ok)]
      ∧ recovered.state.map["b"]? = none ∧ recovered.highWater 2 = 0 := by
  decide +kernel

/-- **Exactly-once outputs.** Through any crashes between durable steps, any snapshots and any
re-deliveries, within the formats' limits: no `(client, seq)` is answered twice, every answer is
the serial run's, and what a recovery shows beyond the answered ops was in flight at a crash. -/
theorem exactly_once_outputs {interval : UInt64} {events : List Event}
    (hatomic : Run.Guarded step Atomic (start interval : History KvStore) events) :
    let history := Run.run step (start interval : History KvStore) events
    (history.acked.map fun entry => (entry.1.2.client, entry.1.2.seq)).Nodup
      ∧ (∀ entry ∈ history.acked, ∃ index : Nat, history.appended[index]? = some entry.1
        ∧ ((Core.init : Core KvStore).outputs history.appended)[index]? = some (some entry.2))
      ∧ (∀ next : UInt64, (Engine.recover history.disk next : Engine KvStore).state
        = history.appended.foldl (fun store record => (store.apply record.2).1) ⟨∅⟩)
      ∧ ∀ record ∈ history.appended,
        (∃ out, (record, out) ∈ history.acked) ∨ record ∈ history.inFlight := by
  intro history
  obtain ⟨hcoherent, hobserved⟩ := observed_run (sound_of_atomic hatomic)
  refine ⟨?_, hobserved.output, ?_, hobserved.covered⟩
  · have hkeys := (hobserved.sublist.map Record.key).nodup hobserved.keys
    rwa [List.map_map] at hkeys
  · intro next
    rw [recover_toCore, hcoherent.recovered]
    exact hobserved.state

theorem exactly_once_outputs_crash_before_reply :
    let op : Op := ⟨1, 1, .incr "k" 7⟩
    let events := [Event.deliver ⟨.none, .crashRenamed⟩ 5 op, .recover 3,
      .deliver Faults.clean 5 op, .deliver Faults.clean 6 ⟨1, 2, .incr "k" 1⟩]
    let history := Run.run step (start 1 : History KvStore) events
    history.acked = [((6, ⟨1, 2, .incr "k" 1⟩), .value (some 8))] ∧ history.inFlight = [(5, op)]
      ∧ (history.acked.map fun entry => (entry.1.2.client, entry.1.2.seq)).Nodup
      ∧ (∀ entry ∈ history.acked, ∃ index : Nat, history.appended[index]? = some entry.1
        ∧ ((Core.init : Core KvStore).outputs history.appended)[index]? = some (some entry.2))
      ∧ (∀ next : UInt64, (Engine.recover history.disk next : Engine KvStore).state
        = history.appended.foldl (fun store record => (store.apply record.2).1) ⟨∅⟩)
      ∧ ∀ record ∈ history.appended,
        (∃ out, (record, out) ∈ history.acked) ∨ record ∈ history.inFlight :=
  ⟨by decide +kernel, by decide +kernel, exactly_once_outputs (by decide +kernel)⟩

end History

end OneBarrier
