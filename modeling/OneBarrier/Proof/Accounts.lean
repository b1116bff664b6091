import OneBarrier.Proof.Interval
import OneBarrier.Proof.Oracle
import OneBarrier.Proof.Replica

/-!
# What an engine counts

An uninterrupted engine cuts a snapshot behind every full interval of the ops it takes and behind no
other, so its counters are the quotient and the remainder of one number. The log holds the remainder,
and that is what a recovery replays: it comes out as the engine was, but for the statistics.
-/

namespace OneBarrier

open Wire Durable LawfulStateMachine

/-- A delivery with no fault returns. -/
theorem deliver_clean_ok (engine : Engine KvStore) (disk : Disk) (ts : UInt64) (op : Op) :
    ∃ out next after, engine.deliver Faults.clean disk ts op = (.ok out, next, after) := by
  by_cases hfresh : (dedup KvStore).fresh engine.toCore (ts, op)
  · obtain ⟨next, after, hdeliver, -⟩ := @deliver_clean_of_fresh engine disk ts op hfresh
    exact ⟨_, next, after, hdeliver⟩
  · exact ⟨_, _, _, deliver_of_not_fresh hfresh⟩

/-- What the log holds of the records an engine has taken: those since the last full interval. -/
def sinceSnapshot (interval : Nat) (accepted : List Record) : List (UInt64 × Bytes) :=
  (accepted.drop (accepted.length / interval * interval)).map fun record =>
    (record.1, record.2.encode)

/-- The counters of an engine that has taken these records and suppressed `suppressed`, and what its
directory holds. -/
structure Engine.Accounted (interval : UInt64) (accepted : List Record) (suppressed : Nat)
    (engine : Engine KvStore) (disk : Disk) : Prop where
  fixed : engine.snapInterval = interval
  live : disk.recovered KvStore = engine.toCore
  whole : tornTail disk = []
  stats : engine.stats = {
    applied := UInt64.ofNat accepted.length
    suppressed := UInt64.ofNat suppressed
    snapshots := UInt64.ofNat (accepted.length / interval.toNat) }
  since : engine.opsSinceSnap.toNat = accepted.length % interval.toNat
  pending : disk.pending KvStore = accepted.length % interval.toNat
  log : readLog disk = sinceSnapshot interval.toNat accepted

namespace Engine.Accounted

variable {interval : UInt64} {accepted : List Record} {suppressed : Nat} {engine : Engine KvStore}
  {disk : Disk} {ts : UInt64} {op : Op}

theorem create (interval : UInt64) :
    Engine.Accounted (max interval 1) [] 0 (Engine.create interval) Disk.empty where
  fixed := rfl
  live := rfl
  whole := rfl
  stats := by rw [List.length_nil, Nat.zero_div]; rfl
  since := by rw [List.length_nil, Nat.zero_mod]; rfl
  pending := by rw [List.length_nil, Nat.zero_mod]; rfl
  log := by rw [sinceSnapshot, List.drop_nil]; rfl

theorem suppress (haccounted : engine.Accounted interval accepted suppressed disk) :
    Engine.Accounted interval accepted (suppressed + 1)
      { engine with stats := { engine.stats with suppressed := engine.stats.suppressed + 1 } } disk
    where
  fixed := haccounted.fixed
  live := haccounted.live
  whole := haccounted.whole
  stats := by rw [haccounted.stats, UInt64.ofNat_add]; rfl
  since := haccounted.since
  pending := haccounted.pending
  log := haccounted.log

/-- The op that completes an interval starts the next one. -/
theorem div_mod_full {taken interval : Nat} (hfull : taken % interval + 1 = interval) :
    (taken + 1) / interval = taken / interval + 1 ∧ (taken + 1) % interval = 0 := by
  have hpositive : 0 < interval := by omega
  refine (Nat.div_mod_unique hpositive).mpr ⟨?_, hpositive⟩
  have hsplit := Nat.mod_add_div taken interval
  rw [Nat.mul_succ]
  omega

theorem div_mod_open {taken interval : Nat} (hopen : taken % interval + 1 < interval) :
    (taken + 1) / interval = taken / interval
      ∧ (taken + 1) % interval = taken % interval + 1 := by
  refine (Nat.div_mod_unique (by omega)).mpr ⟨?_, hopen⟩
  have hsplit := Nat.mod_add_div taken interval
  omega

theorem sinceSnapshot_full {taken : Nat} (hfull : (taken + 1) % interval.toNat = 0)
    (hlength : accepted.length = taken) (record : Record) :
    sinceSnapshot interval.toNat (accepted ++ [record]) = [] := by
  rw [sinceSnapshot, List.length_append, hlength, List.length_singleton,
    Nat.div_mul_cancel (Nat.dvd_of_mod_eq_zero hfull), List.drop_of_length_le, List.map_nil]
  rw [List.length_append, hlength, List.length_singleton]

theorem sinceSnapshot_open {taken : Nat}
    (hopen : (taken + 1) / interval.toNat = taken / interval.toNat) (hlength : accepted.length = taken)
    (record : Record) :
    sinceSnapshot interval.toNat (accepted ++ [record])
      = sinceSnapshot interval.toNat accepted ++ [(record.1, record.2.encode)] := by
  have hle : taken / interval.toNat * interval.toNat ≤ accepted.length :=
    hlength ▸ Nat.div_mul_le_self taken interval.toNat
  rw [sinceSnapshot, sinceSnapshot, List.length_append, List.length_singleton, hlength, hopen,
    List.drop_append_of_le_length hle, List.map_append]
  rfl

/-- **The step lemma** for an op that is new. -/
theorem take (haccounted : engine.Accounted interval accepted suppressed disk)
    (hpositive : 0 < interval.toNat) (hfresh : (dedup KvStore).fresh engine.toCore (ts, op))
    (hop : op.Loggable) (hencodable : Encodable ((dedup KvStore).deliver engine.toCore (ts, op)).state)
    (hfits : ((dedup KvStore).deliver engine.toCore (ts, op)).Fits) :
    ∃ next after, engine.deliver Faults.clean disk ts op
        = (.ok ((dedup KvStore).output engine.toCore (ts, op)), next, after)
      ∧ next.toCore = (dedup KvStore).deliver engine.toCore (ts, op)
      ∧ next.Accounted interval (accepted ++ [(ts, op)]) suppressed after := by
  obtain ⟨taken, htaken⟩ : ∃ taken, accepted.length = taken := ⟨_, rfl⟩
  have hsuccLength : (accepted ++ [(ts, op)]).length = taken + 1 := by
    rw [List.length_append, htaken, List.length_singleton]
  have hlive := haccounted.live
  have hlogged := pending_append haccounted.whole hop (hlive ▸ hfresh)
  have happended := recovered_append KvStore haccounted.whole ts hop
  have hwhole := (store_append KvStore haccounted.whole ts hop).2
  have hroom := Nat.mod_lt taken hpositive
  have hsucc : (engine.opsSinceSnap + 1).toNat = taken % interval.toNat + 1 := by
    have hword := interval.toNat_lt
    rw [UInt64.toNat_add, haccounted.since, htaken]
    exact Nat.mod_eq_of_lt (by simp only [UInt64.toNat_one]; omega)
  have happlied : UInt64.ofNat taken + 1 = UInt64.ofNat (taken + 1) := by
    rw [UInt64.ofNat_add]
    rfl
  rw [haccounted.pending, htaken] at hlogged
  rw [hlive] at happended
  rw [Journal.Machine.deliver_of_fresh hfresh] at hencodable hfits happended ⊢
  rw [deliver_of_fresh hfresh]
  dsimp only [Faults.clean, append]
  by_cases hdue : interval ≤ engine.opsSinceSnap + 1
  · have hfull : taken % interval.toNat + 1 = interval.toNat := by
      rw [UInt64.le_iff_toNat_le, hsucc] at hdue
      omega
    obtain ⟨hdiv, hmod⟩ := div_mod_full hfull
    have hcut := recovered_writeSnapshot hencodable hfits happended .none
    have hpending := @pending_writeSnapshot KvStore _ _ _ _ hencodable hfits happended .none
      (by decide) (by decide)
    rw [Engine.snapshotIfDue, if_pos (by exact haccounted.fixed ▸ hdue)]
    refine ⟨_, _, rfl, rfl, ⟨haccounted.fixed, hcut, rfl, ?_, ?_, ?_, ?_⟩⟩
    · change { engine.stats with
        applied := engine.stats.applied + 1, snapshots := engine.stats.snapshots + 1 } = _
      rw [haccounted.stats, hsuccLength, htaken, hdiv, UInt64.ofNat_add (taken / interval.toNat), ← happlied]
      rfl
    · rw [hsuccLength, hmod]
      rfl
    · rw [hsuccLength, hmod]
      exact hpending
    · rw [sinceSnapshot_full hmod htaken]
      rfl
  · have hopen : taken % interval.toNat + 1 < interval.toNat := by
      rw [UInt64.le_iff_toNat_le, hsucc] at hdue
      omega
    obtain ⟨hdiv, hmod⟩ := div_mod_open hopen
    rw [snapshotIfDue_of_not_due (by exact haccounted.fixed ▸ hdue)]
    refine ⟨_, _, rfl, rfl, ⟨haccounted.fixed, happended, hwhole, ?_, ?_, ?_, ?_⟩⟩
    · change { engine.stats with applied := engine.stats.applied + 1 } = _
      rw [haccounted.stats, hsuccLength, htaken, hdiv, ← happlied]
    · rw [hsuccLength]
      exact hsucc.trans hmod.symm
    · rw [hsuccLength]
      exact hlogged.trans hmod.symm
    · rw [sinceSnapshot_open hdiv htaken, ← haccounted.log]
      exact readLog_append haccounted.whole ts hop.2

/-- A recovery of the directory is the engine itself, with its counters at zero. -/
theorem recover_eq (haccounted : engine.Accounted interval accepted suppressed disk)
    {chosen : UInt64} (hchosen : max chosen 1 = interval) (hpositive : 0 < interval.toNat) :
    (Engine.recover disk chosen : Engine KvStore)
      = { engine with stats := { replayed := UInt64.ofNat (accepted.length % interval.toNat) } } := by
  have hroom := Nat.mod_lt accepted.length hpositive
  have hreplayed := @recover_replayed KvStore _ disk chosen
  rw [haccounted.pending] at hreplayed
  have hword : (UInt64.ofNat (accepted.length % interval.toNat)).toNat = accepted.length % interval.toNat :=
    UInt64.toNat_ofNat_of_lt' (hroom.trans interval.toNat_lt)
  have hsince : (Engine.recover disk chosen : Engine KvStore).opsSinceSnap
      = engine.opsSinceSnap := by
    apply UInt64.toNat_inj.mp
    calc ((Engine.recover disk chosen : Engine KvStore).opsSinceSnap).toNat
        = ((Engine.recover disk chosen : Engine KvStore).stats.replayed % max chosen 1).toNat := rfl
      _ = accepted.length % interval.toNat := by
        rw [hreplayed, hchosen, UInt64.toNat_mod, hword, Nat.mod_eq_of_lt hroom]
      _ = engine.opsSinceSnap.toNat := haccounted.since.symm
  have hcore := (recover_toCore disk chosen).trans haccounted.live
  have hfixed : (Engine.recover disk chosen : Engine KvStore).snapInterval = engine.snapInterval :=
    hchosen.trans haccounted.fixed.symm
  have hstats : (Engine.recover disk chosen : Engine KvStore).stats
      = { replayed := UInt64.ofNat (accepted.length % interval.toNat) } := by
    rw [← hreplayed]
    rfl
  generalize (Engine.recover disk chosen : Engine KvStore) = recovered at *
  obtain ⟨core, snapInterval, opsSinceSnap, stats⟩ := recovered
  simp only at hcore hfixed hsince hstats
  rw [hcore, hfixed, hsince, hstats]

end Engine.Accounted

namespace Oracle

variable {interval : UInt64} {accepted : List Record} {suppressed : Nat} {engine : Engine KvStore}
  {disk : Disk}

/-- **The run lemma.** What is not suppressed is taken, and everything is counted. -/
theorem feed_accounted {done stream : List Record} (hstream : StreamFits KvStore (done ++ stream))
    (hcore : engine.toCore = serial KvStore done) (hpositive : 0 < interval.toNat)
    (haccounted : engine.Accounted interval accepted suppressed disk) (applied : Nat) :
    let result := feed engine disk applied stream
    let more := (dedup KvStore).accepted engine.toCore stream
    result.1.toCore = serial KvStore (done ++ stream) ∧ result.2.2 = applied + more.length
      ∧ more.length ≤ stream.length
      ∧ result.1.Accounted interval (accepted ++ more) (suppressed + (stream.length - more.length))
        result.2.1 := by
  induction stream generalizing done engine disk accepted suppressed applied with
  | nil =>
      rw [List.append_nil]
      refine ⟨hcore, rfl, Nat.le_refl 0, ?_⟩
      rw [Journal.Machine.accepted, List.append_nil]
      exact haccounted
  | cons record stream ih =>
      obtain ⟨ts, op⟩ := record
      have hnext : (dedup KvStore).deliver engine.toCore (ts, op)
          = serial KvStore (done ++ [(ts, op)]) := by rw [serial_concat, hcore]
      have hshift : done ++ (ts, op) :: stream = done ++ [(ts, op)] ++ stream :=
        List.append_cons ..
      rw [hshift] at hstream
      by_cases hfresh : (dedup KvStore).fresh engine.toCore (ts, op)
      · have hprefix : serial KvStore (done ++ [(ts, op)])
            = serial KvStore ((done ++ [(ts, op)] ++ stream).take (done.length + 1)) := by
          rw [List.take_append_of_le_length (by simp), List.take_of_length_le (by simp)]
        have hop := hstream.loggable (ts, op) (by simp)
        have hencodable : Encodable ((dedup KvStore).deliver engine.toCore (ts, op)).state := by
          rw [hnext, hprefix]
          exact Replica.encodable_take hstream _
        have hfits : ((dedup KvStore).deliver engine.toCore (ts, op)).Fits := by
          rw [hnext, hprefix]
          exact hstream.bounded _ (by simp)
        obtain ⟨next, after, hdeliver, hcore', haccounted'⟩ :=
          haccounted.take hpositive hfresh hop hencodable hfits
        have hout : (dedup KvStore).output engine.toCore (ts, op) ≠ .suppressed :=
          apply_ne_suppressed _ _
        have hfeed : feed engine disk applied ((ts, op) :: stream)
            = feed next after (applied + 1) stream := by
          rw [feed, hdeliver]
          exact congrArg (fun count => feed next after count stream) (if_neg hout)
        have hmore : (dedup KvStore).accepted engine.toCore ((ts, op) :: stream)
            = (ts, op) :: (dedup KvStore).accepted next.toCore stream := by
          rw [Journal.Machine.accepted, if_pos hfresh, hcore']
        obtain ⟨hstate, hcount, hle, hbooks⟩ :=
          ih hstream (hcore'.trans hnext) haccounted' (applied + 1)
        rw [hshift, hfeed, hmore]
        refine ⟨hstate, by rw [hcount, List.length_cons]; omega,
          by rw [List.length_cons, List.length_cons]; omega, ?_⟩
        convert hbooks using 1
        · rw [List.append_assoc]
          rfl
        · rw [List.length_cons, List.length_cons]
          omega
      · have hfeed : feed engine disk applied ((ts, op) :: stream) = feed { engine with
            stats := { engine.stats with suppressed := engine.stats.suppressed + 1 } } disk applied
            stream := by
          rw [feed, deliver_of_not_fresh hfresh]
          rfl
        have hmore : (dedup KvStore).accepted engine.toCore ((ts, op) :: stream)
            = (dedup KvStore).accepted engine.toCore stream := by
          rw [Journal.Machine.accepted, if_neg hfresh, Journal.Machine.deliver_of_not_fresh hfresh]
        have hsame : ({ engine with
            stats := { engine.stats with suppressed := engine.stats.suppressed + 1 } } :
              Engine KvStore).toCore = serial KvStore (done ++ [(ts, op)]) := by
          rw [← hnext, Journal.Machine.deliver_of_not_fresh hfresh]
        obtain ⟨hstate, hcount, hle, hbooks⟩ := ih hstream hsame haccounted.suppress applied
        rw [hshift, hfeed, hmore]
        refine ⟨hstate, hcount, by rw [List.length_cons]; exact Nat.le_succ_of_le hle, ?_⟩
        convert hbooks using 1
        rw [List.length_cons]
        dsimp only at hle ⊢
        omega

theorem toNat_max_one_pos (interval : UInt64) : 0 < (max interval 1).toNat := by
  have hone : (1 : UInt64) ≤ max interval 1 := by
    change 1 ≤ if interval ≤ 1 then 1 else interval
    split
    · exact UInt64.le_refl 1
    · exact UInt64.le_of_lt (UInt64.not_le.mp ‹_›)
  exact UInt64.le_iff_toNat_le.mp hone

/-- A whole stream through a fresh engine. -/
theorem feed_create {stream : List Record} (hstream : StreamFits KvStore stream)
    (interval : UInt64) :
    let result := feed (Engine.create interval) Disk.empty 0 stream
    let accepted := (dedup KvStore).accepted Core.init stream
    result.2.2 = accepted.length ∧ accepted.length ≤ stream.length
      ∧ result.1.toCore = serial KvStore stream
      ∧ result.1.Accounted (max interval 1) accepted (stream.length - accepted.length)
        result.2.1 := by
  intro result accepted
  obtain ⟨hcore, hcount, hle, hbooks⟩ := @feed_accounted _ _ _ _ _ [] stream hstream rfl
    (toNat_max_one_pos interval) (Engine.Accounted.create interval) 0
  rw [Nat.zero_add] at hcount
  rw [List.nil_append, Nat.zero_add] at hbooks
  exact ⟨hcount, hle, hcore, hbooks⟩

/-- **The books balance.** For every stream within the codec limits and every interval: the ops a
fresh engine takes and suppresses add up to the stream, a snapshot is cut behind every full interval
and behind no other op, the log holds what has been taken since the last one, and a recovery replays
that and is otherwise the engine that stopped. -/
theorem feed_accounts {stream : List Record} (hstream : StreamFits KvStore stream)
    (interval : UInt64) :
    let result := feed (Engine.create interval) Disk.empty 0 stream
    let engine := result.1
    let taken := result.2.2
    let every := (max interval 1).toNat
    let accepted := (dedup KvStore).accepted Core.init stream
    taken = accepted.length ∧ taken ≤ stream.length
      ∧ engine.stats = {
          applied := UInt64.ofNat taken
          suppressed := UInt64.ofNat (stream.length - taken)
          snapshots := UInt64.ofNat (taken / every) }
      ∧ engine.opsSinceSnap.toNat = taken % every
      ∧ readLog result.2.1 = (accepted.drop (taken / every * every)).map
          (fun record => (record.1, record.2.encode))
      ∧ engine.state = referenceApply KvStore (stream.map Prod.snd)
      ∧ Engine.recover result.2.1 interval
        = { engine with stats := { replayed := UInt64.ofNat (taken % every) } } := by
  intro result engine taken every accepted
  obtain ⟨hcount, hle, hcore, hbooks⟩ := feed_create hstream interval
  have htaken : taken = accepted.length := hcount
  rw [htaken]
  refine ⟨rfl, hle, hbooks.stats, hbooks.since, hbooks.log, ?_, ?_⟩
  · rw [← state_serial]
    exact congrArg Core.state hcore
  · exact hbooks.recover_eq rfl (toNat_max_one_pos interval)

/-- Three ops and a duplicate at an interval of two. -/
theorem feed_accounts_counterStream :
    let stream := Cluster.counterStream ++ [(4, ⟨1, 1, .incr "k" 1⟩)]
    let result := feed (Engine.create 2) Disk.empty 0 stream
    let accepted := (dedup KvStore).accepted Core.init stream
    result.2.2 = 3 ∧ result.1.stats = { applied := 3, suppressed := 1, snapshots := 1 }
      ∧ accepted = Cluster.counterStream
      ∧ readLog result.2.1 = (accepted.drop (result.2.2 / (max 2 1 : UInt64).toNat
          * (max 2 1 : UInt64).toNat)).map (fun record => (record.1, record.2.encode)) := by
  intro stream result accepted
  have hstream : StreamFits KvStore stream := ⟨by decide +kernel, by decide +kernel⟩
  obtain ⟨-, -, -, -, hlog, -⟩ := feed_accounts hstream 2
  exact ⟨by decide +kernel, by decide +kernel, by decide +kernel, hlog⟩

end Oracle

end OneBarrier
