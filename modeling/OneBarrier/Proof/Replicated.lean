import OneBarrier.Replicated
import OneBarrier.Proof.OnePipeProgress
import OneBarrier.Proof.Replica
import OneBarrier.Proof.Workload
import Mathlib.Data.Fintype.Lattice

/-!
# Replicas on the fabric follow one order

What two receivers have delivered differs only in how far they have come, so the longest of these
lists is an order all of them follow. Every host reflects a prefix of it, in memory and on disk.
-/

namespace OneBarrier

open Wire

/-! ### Initial parts of an order -/

/-- Of two ascending lists, one within the other that misses nothing before its elements is an initial
part of it. -/
theorem prefix_of_subset {α : Type} {before : α → α → Prop}
    (hasymm : ∀ first second, before first second → ¬ before second first) {short long : List α}
    (hshort : short.Pairwise before) (hlong : long.Pairwise before) (hsubset : short ⊆ long)
    (hclosed : ∀ x ∈ long, x ∉ short → ∀ y ∈ short, ¬ before x y) : short <+: long := by
  induction short generalizing long with
  | nil => exact List.nil_prefix
  | cons first short ih =>
      obtain ⟨hfirst, hlater⟩ := List.pairwise_cons.mp hshort
      cases long with
      | nil => exact absurd (hsubset List.mem_cons_self) List.not_mem_nil
      | cons head long =>
          obtain ⟨hhead, hlong⟩ := List.pairwise_cons.mp hlong
          have hsame : head = first := by
            by_contra hne
            -- the head of the longer list comes before every other element of it
            have hbefore := hhead first
              ((List.mem_cons.mp (hsubset List.mem_cons_self)).resolve_left (Ne.symm hne))
            by_cases hmem : head ∈ short
            · exact hasymm _ _ hbefore (hfirst head hmem)
            · refine hclosed head List.mem_cons_self ?_ first List.mem_cons_self hbefore
              exact fun hin => (List.mem_cons.mp hin).elim hne hmem
          subst hsame
          have hirrefl : ∀ x, ¬ before x x := fun x hbefore => hasymm x x hbefore hbefore
          refine (List.prefix_cons_inj head).mpr (ih hlater hlong ?_ ?_)
          · intro x hx
            refine (List.mem_cons.mp (hsubset (List.mem_cons_of_mem _ hx))).resolve_left ?_
            rintro rfl
            exact hirrefl x (hfirst x hx)
          · intro x hx hout y hy
            refine hclosed x (List.mem_cons_of_mem _ hx) (fun hin => ?_) y (List.mem_cons_of_mem _ hy)
            rcases List.mem_cons.mp hin with rfl | hin
            · exact hirrefl x (hhead x hx)
            · exact hout hin

namespace OnePipe

variable {Proc : Type} [LinearOrder Proc] {state : State Proc} {maxTs : Nat}

/-- Of two receivers, one has delivered what the other has and perhaps more behind it. -/
theorem delivered_prefix (hinv : Inv state) (hranged : Ranged maxTs state) (r₁ r₂ : Proc) :
    state.delivered r₁ <+: state.delivered r₂ ∨ state.delivered r₂ <+: state.delivered r₁ := by
  have hasymm : ∀ first second : Msg Proc, Before first second → ¬ Before second first :=
    fun _ _ hbefore => hbefore.asymm
  have hclosed : ∀ r r', ∀ m ∈ state.delivered r', m ∉ state.delivered r →
      ∀ other ∈ state.delivered r, ¬ Before m other :=
    fun r r' m hm hout => hinv.closed r m (hranged.fromSent r' m hm) hout
  by_cases hsubset : state.delivered r₁ ⊆ state.delivered r₂
  · exact .inl (prefix_of_subset hasymm (hinv.sorted r₁) (hinv.sorted r₂) hsubset (hclosed r₁ r₂))
  · simp only [List.subset_def, not_forall] at hsubset
    obtain ⟨m, hm, hout⟩ := hsubset
    refine .inr (prefix_of_subset hasymm (hinv.sorted r₂) (hinv.sorted r₁) ?_ (hclosed r₂ r₁))
    intro other hother
    by_contra hmissing
    have hne : m ≠ other := fun hsame => hout (hsame ▸ hother)
    rcases Before.total hne with hbefore | hbefore
    · exact hclosed r₂ r₁ m hm hout other hother hbefore
    · exact hclosed r₁ r₂ other hother hmissing m hm hbefore

/-- One receiver is ahead of all. -/
theorem exists_longest [Fintype Proc] [Nonempty Proc] (hinv : Inv state)
    (hranged : Ranged maxTs state) :
    ∃ ahead, ∀ r, state.delivered r <+: state.delivered ahead := by
  obtain ⟨ahead, hlongest⟩ := Finite.exists_max fun r => (state.delivered r).length
  refine ⟨ahead, fun r => ?_⟩
  rcases delivered_prefix hinv hranged r ahead with hbehind | hbefore
  · exact hbehind
  · rw [hbefore.eq_of_length_le (hlongest r)]

end OnePipe

/-! ### A stream that grows -/

section Grow

variable {S : Type} [StateMachine S] {short stream : List Record} {replica : Replica S}

namespace Replica

theorem Tracks.grow (htracks : replica.Tracks short) (hshort : short <+: stream) :
    replica.Tracks stream := by
  obtain ⟨rest, rfl⟩ := hshort
  have hreached := htracks.reached_le
  have htake : (short ++ rest).take replica.reached = short.take replica.reached :=
    List.take_append_of_le_length hreached
  refine ⟨htracks.whole, ?_, ?_, htracks.next_le, htracks.since_le, ?_⟩
  · rw [htake]
    exact htracks.recovered
  · rw [htake]
    exact htracks.live
  · rw [List.length_append]
    exact Nat.le_add_right_of_le hreached

theorem Exported.grow {exports : List (Bytes × Nat)} (hexported : Exported S short exports)
    (hshort : short <+: stream) : Exported S stream exports := by
  obtain ⟨rest, rfl⟩ := hshort
  intro state hstate
  obtain ⟨hcount, hbytes⟩ := hexported state hstate
  refine ⟨?_, ?_⟩
  · rw [List.length_append]
    exact Nat.le_add_right_of_le hcount
  · rw [List.take_append_of_le_length hcount]
    exact hbytes

/-- A step on part of the stream is one on the whole of it, or there was nothing to do yet. -/
theorem step_of_prefix {given : Replica S → Nat} (hshort : short <+: stream)
    {exports : List (Bytes × Nat)} {event : ReplicaEvent}
    (hallowed : replica.Allowed given short exports event) :
    replica.step short exports event = replica
      ∨ replica.step short exports event = replica.step stream exports event
        ∧ replica.Allowed given stream exports event := by
  have hsame : ∀ {position : Nat} {record : Record}, short[position]? = some record →
      stream[position]? = some record := by
    intro position record hrecord
    obtain ⟨hlt, rfl⟩ := List.getElem?_eq_some_iff.mp hrecord
    rw [hshort.getElem hlt]
    exact List.getElem?_eq_getElem _
  have hatomic : ∀ {position : Nat} {record : Record} {faults : Faults}, short[position]? = some record →
      faults.Atomic short position → faults.Atomic stream position := by
    intro position record faults hrecord hatomic
    rw [Faults.Atomic, hrecord] at hatomic
    rw [Faults.Atomic, hsame hrecord]
    exact hatomic
  have hhand : ∀ {position : Nat} {record : Record} (faults : Faults), short[position]? = some record →
      replica.hand short faults position = replica.hand stream faults position := by
    intro position record faults hrecord
    rw [Replica.hand, Replica.hand, hrecord, hsame hrecord]
  cases event with
  | advance faults =>
      cases hrecord : short[replica.next]? with
      | none =>
          left
          rw [Replica.step, hrecord]
          cases replica.engine <;> rfl
      | some record =>
          right
          refine ⟨?_, hatomic hrecord hallowed⟩
          rw [Replica.step, Replica.step, hrecord, hsame hrecord, hhand faults hrecord]
  | redeliver faults position =>
      cases hrecord : short[position]? with
      | none =>
          left
          rw [Replica.step, Replica.hand, hrecord]
          cases replica.engine <;> rfl
      | some record =>
          right
          exact ⟨hhand faults hrecord, hatomic hrecord hallowed.1, hallowed.2⟩
  | crash => exact .inr ⟨rfl, hallowed⟩
  | recover interval position => exact .inr ⟨rfl, hallowed⟩
  | adopt state position => exact .inr ⟨rfl, hallowed⟩

end Replica

namespace Cluster

variable {ι : Type} {cluster : Cluster ι S}

theorem Tracks.grow (htracks : cluster.Tracks short) (hshort : short <+: stream) :
    cluster.Tracks stream :=
  ⟨fun index => (htracks.1 index).grow hshort, htracks.2.grow hshort⟩

theorem Tracks.step_of_prefix [DecidableEq ι] [LawfulStateMachine S] (htracks : cluster.Tracks stream)
    (hstream : StreamFits S stream) (hshort : short <+: stream) {event : ClusterEvent ι}
    (hallowed : cluster.Allowed Replica.since short event) : (cluster.step short event).Tracks stream := by
  cases event with
  | replica index event =>
      rcases Replica.step_of_prefix hshort hallowed with hidle | ⟨hsame, hwhole⟩
      · rw [Cluster.step, hidle, Function.update_eq_self]
        exact htracks
      · rw [Cluster.step, hsame]
        exact @Tracks.step _ _ _ _ _ _ _ htracks hstream (.replica index event) hwhole
  | transfer index => exact @Tracks.step _ _ _ _ _ _ _ htracks hstream (.transfer index) hallowed

end Cluster

end Grow

namespace Replicated

open OnePipe

variable {Proc : Type} [LinearOrder Proc] {payload : Msg Proc → Bytes} {maxTs : Nat}
  {system next : System Proc}

/-- Whatever the messages the clocks allow come to, it fits the logs and the snapshots. -/
def Fits (payload : Msg Proc → Bytes) (maxTs : Nat) : Prop :=
  ∀ order : List (Msg Proc), order.Pairwise Before → (∀ m ∈ order, 1 ≤ m.ts ∧ m.ts ≤ maxTs) →
    StreamFits KvStore (records payload order)

/-- The order is what the receiver that is ahead has delivered, and the hosts reflect parts of it. -/
structure Follows (payload : Msg Proc → Bytes) (maxTs : Nat) (order : List (Msg Proc))
    (system : System Proc) : Prop where
  inv : Inv system.fabric
  ranged : Ranged maxTs system.fabric
  ahead : ∃ r, order = system.fabric.delivered r
  behind : ∀ r, system.fabric.delivered r <+: order
  tracks : system.hosts.Tracks (records payload order)

variable {order : List (Msg Proc)}

theorem Follows.sorted (hfollows : Follows payload maxTs order system) : order.Pairwise Before := by
  obtain ⟨r, hahead⟩ := hfollows.ahead
  rw [hahead]
  exact hfollows.inv.sorted r

theorem Follows.sent (hfollows : Follows payload maxTs order system) {m : Msg Proc} (hm : m ∈ order) :
    m ∈ system.fabric.sent := by
  obtain ⟨r, hahead⟩ := hfollows.ahead
  rw [hahead] at hm
  exact hfollows.ranged.fromSent r m hm

/-- **The step lemma.** The fabric can only lengthen the order. -/
theorem Follows.step [Fintype Proc] [Nonempty Proc] (hfits : Fits payload maxTs)
    (hfollows : Follows payload maxTs order system) (hstep : Step payload maxTs system next) :
    ∃ longer, Follows payload maxTs longer next := by
  cases hstep with
  | @fabric fabric hnext =>
      have hinv := hfollows.inv.step hnext
      have hranged := hfollows.ranged.step hfollows.inv hnext
      obtain ⟨ahead, hbehind⟩ := exists_longest hinv hranged
      obtain ⟨r, hahead⟩ := hfollows.ahead
      have hlonger : order <+: fabric.delivered ahead := by
        rw [hahead]
        exact ((next_extends hnext).2 r).trans (hbehind r)
      exact ⟨_, hinv, hranged, ⟨ahead, rfl⟩, hbehind,
        hfollows.tracks.grow (hlonger.filterMap (recordOf payload))⟩
  | host event hallowed =>
      have hstream := hfits order hfollows.sorted fun m hm =>
        hfollows.ranged.stamps m (hfollows.sent hm)
      have hpart := (hfollows.behind (host event)).filterMap (recordOf payload)
      exact ⟨order, hfollows.inv, hfollows.ranged, hfollows.ahead, hfollows.behind,
        hfollows.tracks.step_of_prefix hstream hpart hallowed⟩

/-- **The run lemma.** -/
theorem follows_of_reachable [Fintype Proc] [Nonempty Proc] (hfits : Fits payload maxTs)
    {intervals : Proc → UInt64} (hreachable : Reachable payload maxTs intervals system) :
    ∃ order, Follows payload maxTs order system := by
  induction hreachable with
  | refl =>
      exact ⟨[], inv_init, ranged_init maxTs, ⟨Classical.arbitrary Proc, rfl⟩,
        fun _ => List.prefix_refl _, Cluster.tracks_start intervals⟩
  | tail _ hstep ih =>
      obtain ⟨order, hfollows⟩ := ih
      exact hfollows.step hfits hstep

/-- What a host that has worked through its deliveries reflects. -/
theorem Follows.caughtUp (hfollows : Follows payload maxTs order system) {index : Proc}
    {engine : Engine KvStore} (hengine : engine ∈ (system.hosts.replicas index).engine)
    (hcaught : system.CaughtUp payload index) :
    (system.stream payload index).length ≤ (system.hosts.replicas index).reached :=
  hcaught.trans ((hfollows.tracks.1 index).next_le engine hengine)

/-- **One order for all replicas.** In every state the fabric and the hosts can reach together there is
one order of messages sent, of which every receiver has delivered an initial part. Every host, in its
engine if it is up and in its directory in any case, reflects an initial part of the ops in that order,
and no less than was delivered to it if it has caught up. When the fabric has nothing left to do the
order has every message sent, and every host that has caught up reflects all of it. -/
theorem replicas_follow_fabric [Fintype Proc] [Nonempty Proc] (hfits : Fits payload maxTs)
    {intervals : Proc → UInt64} (hreachable : Reachable payload maxTs intervals system) :
    ∃ order : List (Msg Proc), order.Pairwise Before ∧ (∀ m ∈ order, m ∈ system.fabric.sent)
      ∧ (∀ index, system.fabric.delivered index <+: order)
      ∧ (∀ index, ∃ count ≤ (records payload order).length,
        let core := serial KvStore ((records payload order).take count)
        (∀ engine ∈ (system.hosts.replicas index).engine, engine.toCore = core
            ∧ (system.CaughtUp payload index → (system.stream payload index).length ≤ count))
          ∧ ∀ interval, (Engine.recover (system.hosts.replicas index).disk interval :
            Engine KvStore).toCore = core)
      ∧ ((∀ next, ¬ Next maxTs system.fabric next) → (∀ m ∈ system.fabric.sent, m ∈ order)
        ∧ ∀ index, ∀ engine ∈ (system.hosts.replicas index).engine, system.CaughtUp payload index →
          engine.toCore = serial KvStore (records payload order)) := by
  obtain ⟨order, hfollows⟩ := follows_of_reachable hfits hreachable
  have hreflects : ∀ index, ∀ engine ∈ (system.hosts.replicas index).engine, engine.toCore
      = serial KvStore ((records payload order).take (system.hosts.replicas index).reached) :=
    fun index => (hfollows.tracks.1 index).live
  refine ⟨order, hfollows.sorted, fun _ => hfollows.sent, hfollows.behind, fun index => ?_,
    fun hfinal => ?_⟩
  · refine ⟨(system.hosts.replicas index).reached, (hfollows.tracks.1 index).reached_le, ?_, ?_⟩
    · exact fun engine hengine => ⟨hreflects index engine hengine, hfollows.caughtUp hengine⟩
    · intro interval
      rw [recover_toCore]
      exact (hfollows.tracks.1 index).recovered
  · have hall := fun r m =>
      mem_delivered_of_final (m := m) hfollows.inv hfollows.ranged hfinal r
    obtain ⟨ahead, hahead⟩ := hfollows.ahead
    refine ⟨fun m hm => ?_, fun index engine hengine hcaught => ?_⟩
    · rw [hahead]
      exact (hall ahead m).mpr hm
    · have hstream : system.stream payload index = records payload order := by
        rw [System.stream, hahead, hfollows.inv.sorted.eq_of_final hall index ahead]
      have hcount := hfollows.caughtUp hengine hcaught
      rw [hstream] at hcount
      rw [hreflects index engine hengine, List.take_of_length_le hcount]

/-- The hosts may wait. -/
theorem reachable_fabric {fabric : OnePipe.State Proc} {intervals : Proc → UInt64}
    (hfabric : OnePipe.Reachable maxTs fabric) :
    Reachable payload maxTs intervals { System.start intervals with fabric } := by
  induction hfabric with
  | refl => exact .refl
  | tail _ hnext ih => exact ih.tail (.fabric hnext)

/-- Every message is an increment of its sender. -/
def countingOp (m : Msg (Fin 2)) : Op :=
  { client := UInt32.ofNat m.src, seq := UInt64.ofNat m.ts, kind := .incr (Oracle.key 0) 1 }

theorem counts_countingOp (m : Msg (Fin 2)) : Oracle.Counts [0, 1] 1 (countingOp m) := by
  obtain ⟨ts, src⟩ := m
  refine ⟨?_, 0, Nat.zero_lt_one, rfl⟩
  exact (by decide : ∀ src : Fin 2, UInt32.ofNat src ∈ [0, 1]) src

theorem recordOf_countingOp (m : Msg (Fin 2)) :
    recordOf (fun m => (countingOp m).encode) m = some (UInt64.ofNat m.ts, countingOp m) := by
  have hfits : (countingOp m).Fits := ((counts_countingOp m).loggable (by decide)).1
  rw [recordOf, Op.decode_encode hfits, Option.map_some]

theorem fits_countingOp : Fits (fun m => (countingOp m).encode) 1 := by
  intro order _ _
  refine @Oracle.streamFits_of_counts [0, 1] 1 _ ?_ (by decide) (by decide)
  intro record hrecord
  obtain ⟨m, -, hm⟩ := List.mem_filterMap.mp hrecord
  rw [recordOf_countingOp, Option.some.injEq] at hm
  subst hm
  exact counts_countingOp m

/-- One message, delivered to one of two processes and handed to its engine. -/
theorem replicas_follow_fabric_one :
    ∃ system : System (Fin 2),
      (((system.hosts.replicas 1).engine.map fun engine => engine.state.map[Oracle.key 0]?)
          = some (some [49]))
        ∧ ∃ order : List (Msg (Fin 2)), order.Pairwise Before ∧ (∀ m ∈ order, m ∈ system.fabric.sent)
          ∧ ∀ index, system.fabric.delivered index <+: order := by
  let payload : Msg (Fin 2) → Bytes := fun m => (countingOp m).encode
  obtain ⟨fabric, hfabric, hdelivered⟩ := exists_reachable_delivered
  let hosts : Cluster (Fin 2) KvStore := Cluster.start fun _ => 8
  let event : ClusterEvent (Fin 2) := .replica 1 (.advance Faults.clean)
  have hstream : System.stream payload ⟨fabric, hosts⟩ (host event)
      = [(1, countingOp { ts := 1, src := 0 })] := by
    change (fabric.delivered 1).filterMap (recordOf payload) = _
    rw [hdelivered, List.filterMap_cons_some (recordOf_countingOp _)]
    rfl
  have hbefore : Reachable payload 1 (fun _ => 8) ⟨fabric, hosts⟩ := reachable_fabric hfabric
  have hallowed : hosts.Allowed Replica.since (System.stream payload ⟨fabric, hosts⟩ (host event))
      event := by
    rw [hstream]
    decide +kernel
  have hreachable := hbefore.tail (.host event hallowed)
  obtain ⟨order, hsorted, hsent, hbehind, -⟩ := replicas_follow_fabric fits_countingOp hreachable
  refine ⟨_, ?_, order, hsorted, hsent, hbehind⟩
  dsimp only
  rw [hstream]
  decide +kernel

end Replicated

end OneBarrier
