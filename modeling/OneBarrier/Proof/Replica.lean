import OneBarrier.Replica
import OneBarrier.Proof.Coherence

/-!
# Replicas converge

A replica reflects a prefix of the stream: its directory recovers to the core that prefix leads to,
and so does its live engine. Being handed an op of that prefix again changes nothing, and being
handed the op right behind it extends the prefix by one. Adopting an exported state moves the
replica to the exporter's prefix, whatever its own was.
-/

namespace OneBarrier

open Wire Durable LawfulStateMachine

variable {ι S : Type} [StateMachine S]

/-- Every op of the stream fits the log, and every prefix of it leads to a core that fits a
snapshot. -/
structure StreamFits (S : Type) [StateMachine S] (stream : List Record) : Prop where
  loggable : ∀ record ∈ stream, record.2.Loggable
  bounded : ∀ count ≤ stream.length, (serial S (stream.take count)).Fits

namespace Replica

structure Tracks (stream : List Record) (replica : Replica S) : Prop where
  whole : tornTail replica.disk = []
  recovered : replica.disk.recovered S = serial S (stream.take replica.reached)
  live : ∀ engine ∈ replica.engine, engine.toCore = serial S (stream.take replica.reached)
  next_le : ∀ engine ∈ replica.engine, replica.next ≤ replica.reached
  since_le : replica.since ≤ replica.reached + 1
  reached_le : replica.reached ≤ stream.length

variable {stream : List Record} {replica : Replica S} {engine : Engine S} {faults : Faults}
  {position : Nat}

theorem serial_take_succ {record : Record} (hrecord : stream[position]? = some record) :
    serial S (stream.take (position + 1))
      = (dedup S).deliver (serial S (stream.take position)) record := by
  obtain ⟨hlt, rfl⟩ := List.getElem?_eq_some_iff.mp hrecord
  rw [List.take_succ_eq_append_getElem hlt, serial_concat]

/-- An op within the prefix is covered by it. -/
theorem not_fresh_of_lt {record : Record} {count : Nat} (hrecord : stream[position]? = some record)
    (hlt : position < count) : ¬ (dedup S).fresh (serial S (stream.take count)) record := by
  apply Journal.Machine.not_fresh_deliverAll_of_mem
  obtain ⟨hposition, rfl⟩ := List.getElem?_eq_some_iff.mp hrecord
  exact List.mem_take_iff_getElem.mpr ⟨position, by omega, rfl⟩

theorem encodable_take [LawfulStateMachine S] (hstream : StreamFits S stream) (count : Nat) :
    Encodable (serial S (stream.take count)).state :=
  encodable_serial fun record hrecord =>
    (hstream.loggable record (List.mem_of_mem_take hrecord)).1

theorem serial_take_max {record : Record} {reached : Nat}
    (hrecord : stream[position]? = some record) (hposition : position ≤ reached) :
    serial S (stream.take (max reached (position + 1)))
      = (dedup S).deliver (serial S (stream.take reached)) record := by
  rcases Nat.lt_or_eq_of_le hposition with hlt | rfl
  · rw [Nat.max_eq_left hlt, Journal.Machine.deliver_of_not_fresh (not_fresh_of_lt hrecord hlt)]
  · rw [Nat.max_eq_right (Nat.le_succ _), serial_take_succ hrecord]

variable [LawfulStateMachine S]

/-- **The step lemma.** Handed an op of its prefix, or the one right behind it, a replica tracks
the stream still, and if it is alive afterwards it has reached that op. -/
theorem Tracks.hand (htracks : replica.Tracks stream) (hstream : StreamFits S stream)
    (hatomic : faults.Atomic stream position) (hposition : position ≤ replica.reached) :
    (replica.hand stream faults position).Tracks stream
      ∧ ∀ record, stream[position]? = some record → replica.engine ≠ none →
        ∀ engine ∈ (replica.hand stream faults position).engine,
          position + 1 ≤ (replica.hand stream faults position).reached := by
  rw [Replica.hand]
  cases hengine : replica.engine with
  | none => exact ⟨htracks, fun _ _ hlive => absurd rfl hlive⟩
  | some engine =>
      cases hrecord : stream[position]? with
      | none => exact ⟨htracks, by rintro _ ⟨⟩⟩
      | some record =>
          obtain ⟨ts, op⟩ := record
          have hcore := htracks.live engine hengine
          have hnext : (dedup S).deliver engine.toCore (ts, op)
              = serial S (stream.take (max replica.reached (position + 1))) := by
            rw [hcore, serial_take_max hrecord hposition]
          have hlength : max replica.reached (position + 1) ≤ stream.length := by
            obtain ⟨hlt, -⟩ := List.getElem?_eq_some_iff.mp hrecord
            have hreached := htracks.reached_le
            omega
          have hop : op.Loggable := hstream.loggable _ (List.mem_of_getElem? hrecord)
          have hfault := hatomic.1 _ hrecord
          have hwhole := tornTail_deliver engine htracks.whole hop hfault
          have hlive : replica.disk.recovered S = engine.toCore := by
            rw [htracks.recovered, hcore]
          have hcrash : faults.append.IsCrash := by
            cases hcase : faults.append <;> rw [hcase] at hfault <;> trivial
          have hencodable : Encodable ((dedup S).deliver engine.toCore (ts, op)).state := by
            rw [hnext]
            exact encodable_take hstream _
          have hfits : ((dedup S).deliver engine.toCore (ts, op)).Fits := by
            rw [hnext]
            exact hstream.bounded _ hlength
          have hcases := deliver_cases hlive hencodable hfits hop hcrash hatomic.2
            (.inl htracks.whole)
          have hsince := htracks.since_le
          -- the op is taken: a duplicate, or its record complete
          have htaken : ∀ (disk : Disk) (after : Option (Engine S)), tornTail disk = [] →
              disk.recovered S = serial S (stream.take (max replica.reached (position + 1))) →
              (∀ engine ∈ after, engine.toCore
                = serial S (stream.take (max replica.reached (position + 1)))) →
              Tracks stream { replica with
                given := max replica.given (position + 1)
                since := max replica.since (position + 1)
                reached := max replica.reached (position + 1)
                disk, engine := after } := by
            intro disk after hwhole hdisk hafter
            refine ⟨hwhole, hdisk, hafter, ?_, ?_, hlength⟩
            · intro _ _
              exact (htracks.next_le engine hengine).trans (Nat.le_max_left _ _)
            · change max replica.since _ ≤ max replica.reached _ + 1
              omega
          dsimp only
          generalize engine.deliver faults replica.disk ts op = result at hcases hwhole ⊢
          obtain ⟨outcome, after, disk⟩ := result
          rcases hcases with ⟨hcovered, rfl, hafter, rfl⟩
            | ⟨hfresh, hcomplete, hout, hafter, hdisk⟩ | ⟨hfresh, hcomplete, rfl, hdisk⟩
          · rw [Journal.Machine.deliver_of_not_fresh hcovered] at hnext
            simp only [applyDedup_of_not_fresh hcovered, Option.isNone_none, Bool.true_or, if_true]
            refine ⟨htaken _ _ hwhole (hlive.trans hnext) ?_, ?_⟩
            · rintro engine ⟨⟩
              exact hafter.trans hnext
            · exact fun _ _ _ _ _ => Nat.le_max_right _ _
          · simp only [hcomplete, Bool.or_true, if_true]
            rw [hnext] at hafter hdisk
            rcases hout with rfl | rfl
            · refine ⟨htaken _ _ hwhole hdisk ?_, ?_⟩
              · rintro engine ⟨⟩
                exact hafter
              · exact fun _ _ _ _ _ => Nat.le_max_right _ _
            · exact ⟨htaken _ none hwhole hdisk (by rintro engine ⟨⟩), by rintro _ _ _ engine ⟨⟩⟩
          · simp only [applyDedup_of_fresh hfresh, hcomplete, Option.isNone_some, Bool.or_false,
              Bool.false_eq_true, if_false]
            refine ⟨⟨hwhole, hdisk.trans hcore, ?_, ?_, ?_, htracks.reached_le⟩, ?_⟩
            · rintro engine ⟨⟩
            · rintro engine ⟨⟩
            · change max replica.since _ ≤ replica.reached + 1
              omega
            · rintro _ _ _ engine ⟨⟩

theorem Tracks.adopt (htracks : replica.Tracks stream) (hstream : StreamFits S stream)
    {count : Nat} (hcount : count ≤ stream.length) (hposition : position ≤ count) :
    (replica.adopt ((serial S (stream.take count)).encodeSnapshot, count) position).Tracks stream
    := by
  have hencodable := encodable_take hstream count
  have hfits := hstream.bounded count hcount
  rw [Replica.adopt]
  cases hengine : replica.engine with
  | none => exact htracks
  | some engine =>
      refine ⟨rfl, ?_, ?_, fun _ _ => hposition, Nat.le_succ _, hcount⟩
      · exact (congrArg (fun store => Journal.Store.recovered (dedup S) store)
          (store_rename hencodable hfits { replica.disk with oplog := none }))
      · intro live hlive
        rw [← Option.some.inj hlive, importState_toCore]
        exact loadSnapshot_encodeSnapshot hencodable hfits _

variable (S) in
/-- What holds of the states in transfer: each is the encoding of the core some prefix leads to. -/
def Exported (stream : List Record) (exports : List (Bytes × Nat)) : Prop :=
  ∀ state ∈ exports, state.2 ≤ stream.length
    ∧ state.1 = (serial S (stream.take state.2)).encodeSnapshot

theorem Tracks.step (htracks : replica.Tracks stream) (hstream : StreamFits S stream)
    {exports : List (Bytes × Nat)} (hexported : Exported S stream exports)
    {event : ReplicaEvent} (hallowed : replica.Allowed since stream exports event) :
    (replica.step stream exports event).Tracks stream := by
  cases event with
  | advance faults =>
      rw [Replica.step]
      split
      · rename_i engine record hengine hrecord
        have hnext := htracks.next_le engine hengine
        obtain ⟨hhand, hreached⟩ := htracks.hand hstream hallowed hnext
        have hlive : replica.engine ≠ none := by simp [hengine]
        exact { hhand with next_le := hreached record hrecord hlive }
      · exact htracks
  | redeliver faults position =>
      have hposition := hallowed.2
      have hsince := htracks.since_le
      exact (htracks.hand hstream hallowed.1 (by omega)).1
  | crash =>
      exact { htracks with live := by rintro engine ⟨⟩, next_le := by rintro engine ⟨⟩ }
  | recover interval position =>
      refine { htracks with live := ?_, next_le := fun _ _ => hallowed }
      rintro engine ⟨⟩
      exact (recover_toCore _ _).trans htracks.recovered
  | adopt state position =>
      rw [Replica.step]
      split
      · rename_i exported hstate
        obtain ⟨bytes, count⟩ := exported
        obtain ⟨hcount, hbytes⟩ := hexported _ (List.mem_of_getElem? hstate)
        simp only at hcount hbytes
        subst hbytes
        exact htracks.adopt hstream hcount (hallowed _ hstate)
      · exact htracks

end Replica

namespace Cluster

variable [DecidableEq ι] {stream : List Record}

def Tracks (stream : List Record) (cluster : Cluster ι S) : Prop :=
  (∀ index, (cluster.replicas index).Tracks stream) ∧ Replica.Exported S stream cluster.exports

omit [DecidableEq ι] in
theorem tracks_start (intervals : ι → UInt64) :
    (start intervals : Cluster ι S).Tracks stream := by
  refine ⟨fun index => ⟨rfl, ?_, ?_, fun _ _ => Nat.le_refl _, Nat.zero_le _, Nat.zero_le _⟩, ?_⟩
  · rfl
  · rintro engine ⟨⟩
    rfl
  · simp [Replica.Exported, start]

variable [LawfulStateMachine S]

theorem Tracks.step {cluster : Cluster ι S} (htracks : cluster.Tracks stream)
    (hstream : StreamFits S stream) {event : ClusterEvent ι}
    (hallowed : cluster.Allowed Replica.since stream event) :
    (cluster.step stream event).Tracks stream := by
  cases event with
  | replica index event =>
      refine ⟨?_, htracks.2⟩
      intro other
      by_cases hsame : other = index
      · subst hsame
        simp only [Cluster.step, Function.update_self]
        exact (htracks.1 other).step hstream htracks.2 hallowed
      · simp only [Cluster.step, Function.update_of_ne hsame]
        exact htracks.1 other
  | transfer index =>
      rw [Cluster.step]
      split
      · rename_i engine hengine
        refine ⟨htracks.1, ?_⟩
        intro state hstate
        rcases List.mem_append.mp hstate with hold | hnew
        · exact htracks.2 state hold
        · obtain rfl := List.mem_singleton.mp hnew
          have hcore := (htracks.1 index).live engine hengine
          exact ⟨(htracks.1 index).reached_le, congrArg Core.encodeSnapshot hcore⟩
      · exact htracks

/-- **Replica convergence.** Whatever the interleaving of deliveries, re-deliveries, crashes,
recoveries and state transfers, a live replica whose delivery has come to the end of the stream
holds the stream's serial state and marks, and so does its directory. -/
theorem replicas_converge {stream : List Record} (hstream : StreamFits KvStore stream)
    {intervals : ι → UInt64} {events : List (ClusterEvent ι)}
    (hallowed : Run.Guarded (step stream) (Allowed Replica.since stream)
      (start intervals : Cluster ι KvStore) events) :
    let cluster := Run.run (step stream) (start intervals : Cluster ι KvStore) events
    ∀ index, ∀ engine ∈ (cluster.replicas index).engine,
      (cluster.replicas index).next = stream.length →
        engine.state = referenceApply KvStore (stream.map Prod.snd)
          ∧ engine.applied = (serial KvStore stream).applied
          ∧ ∀ interval : UInt64,
            let recovered : Engine KvStore :=
              Engine.recover (cluster.replicas index).disk interval
            recovered.state = referenceApply KvStore (stream.map Prod.snd)
              ∧ recovered.applied = (serial KvStore stream).applied := by
  intro cluster index engine hengine hend
  have htracks : cluster.Tracks stream :=
    Run.invariant_run (Tracks stream) (fun _ _ hevent htracks => htracks.step hstream hevent)
      hallowed (tracks_start intervals)
  have hreplica := htracks.1 index
  have hreached : (cluster.replicas index).reached = stream.length := by
    have hnext := hreplica.next_le engine hengine
    have hle := hreplica.reached_le
    omega
  have hserial : serial KvStore (stream.take (cluster.replicas index).reached)
      = serial KvStore stream := by rw [hreached, List.take_length]
  have hlive := (hreplica.live engine hengine).trans hserial
  refine ⟨by rw [hlive, state_serial], by rw [hlive], ?_⟩
  intro interval
  have hrecovered : (Engine.recover (cluster.replicas index).disk interval : Engine KvStore).toCore
      = serial KvStore stream := by rw [recover_toCore, hreplica.recovered, hserial]
  exact ⟨by rw [hrecovered, state_serial], by rw [hrecovered]⟩

/-- Two increments and an overwrite, the stream of the runs below. -/
def counterStream : List Record :=
  [(1, ⟨1, 1, .incr "k" 1⟩), (2, ⟨1, 2, .incr "k" 1⟩), (3, ⟨2, 1, .set "j" [65]⟩)]

theorem replicas_converge_after_transfer :
    let events : List (ClusterEvent Bool) :=
      [.replica false (.advance Faults.clean), .replica false (.advance Faults.clean),
        .transfer false, .replica true (.advance ⟨.crashBefore, .none⟩),
        .replica true (.recover 2 0), .replica true (.adopt 0 1),
        .replica true (.advance Faults.clean), .replica true (.redeliver Faults.clean 0),
        .replica true (.advance Faults.clean)]
    let cluster := Run.run (step counterStream)
      (start (fun _ => 1) : Cluster Bool KvStore) events
    ∃ engine ∈ (cluster.replicas true).engine,
      (cluster.replicas true).next = counterStream.length
        ∧ engine.state = referenceApply KvStore (counterStream.map Prod.snd)
        ∧ engine.applied = (serial KvStore counterStream).applied
        ∧ ∀ interval : UInt64,
          let recovered : Engine KvStore :=
            Engine.recover (cluster.replicas true).disk interval
          recovered.state = referenceApply KvStore (counterStream.map Prod.snd)
            ∧ recovered.applied = (serial KvStore counterStream).applied := by
  intro events cluster
  have hstream : StreamFits KvStore counterStream := ⟨by decide +kernel, by decide +kernel⟩
  have hlive : (cluster.replicas true).engine.isSome = true := by decide +kernel
  have hend : (cluster.replicas true).next = counterStream.length := by decide +kernel
  obtain ⟨engine, hengine⟩ := Option.isSome_iff_exists.mp hlive
  exact ⟨engine, hengine, hend,
    replicas_converge hstream (by decide +kernel) true engine hengine hend⟩

/-- An op given before the adoption and behind the adopted prefix, re-delivered first: it covers
the ops in front of it, and they are suppressed when they come. -/
theorem redelivery_behind_adopted_state_diverges :
    let events : List (ClusterEvent Bool) :=
      [.transfer false, .replica true (.advance Faults.clean), .replica true (.advance Faults.clean),
        .replica true (.adopt 0 0), .replica true (.redeliver Faults.clean 1),
        .replica true (.advance Faults.clean), .replica true (.advance Faults.clean),
        .replica true (.advance Faults.clean)]
    let cluster := Run.run (step counterStream)
      (start (fun _ => 8) : Cluster Bool KvStore) events
    Run.Guarded (step counterStream) (Allowed Replica.given counterStream)
        (start (fun _ => 8) : Cluster Bool KvStore) events
      ∧ (cluster.replicas true).next = counterStream.length
      ∧ ((cluster.replicas true).engine.map fun engine => engine.state.map["k"]?)
        = some (some [49])
      ∧ (referenceApply KvStore (counterStream.map Prod.snd)).map["k"]? = some [50] := by
  decide +kernel

end Cluster

end OneBarrier
