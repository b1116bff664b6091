import OneBarrier.Replay
import Mathlib.Data.List.Induction

/-!
# Which states replay can rebuild

The capture log keeps one order over all connections and replay keeps only each connection's own, so
the state is rebuilt whatever the threads do exactly on servers whose requests commute.
-/

namespace OneBarrier.Replay

open Wire Interpose Interleave

theorem parse_encodeCapture {fuel : Nat} {records : List (UInt32 × Bytes)}
    (hfuel : records.length ≤ fuel) (hlength : ∀ record ∈ records, record.2.length < 2 ^ 32) :
    parse fuel (records.flatMap fun record => encodeCapture record.1 record.2) = records := by
  induction records generalizing fuel with
  | nil =>
      cases fuel with
      | zero => rfl
      | succ fuel => rfl
  | cons record records ih =>
      obtain ⟨fuel, rfl⟩ := Nat.exists_eq_succ_of_ne_zero (Nat.ne_of_gt (Nat.lt_of_lt_of_le
        (Nat.succ_pos _) hfuel))
      have hsize := hlength record List.mem_cons_self
      have hrest := ih (Nat.le_of_succ_le_succ hfuel) fun other hother =>
        hlength other (List.mem_cons_of_mem record hother)
      have hnat : (UInt32.ofNat record.2.length).toNat = record.2.length :=
        UInt32.toNat_ofNat_of_lt' hsize
      rw [List.flatMap_cons, encodeCapture, List.append_assoc, List.append_assoc, parse,
        (u32_exact record.1).reads]
      dsimp only
      rw [(u32_exact_ofNat hsize).reads]
      dsimp only
      rw [hnat, (bytes_exact record.2).reads]
      dsimp only
      rw [hrest]

theorem length_le_encodeCapture (records : List (UInt32 × Bytes)) :
    records.length ≤ (records.flatMap fun record => encodeCapture record.1 record.2).length := by
  induction records with
  | nil => exact Nat.zero_le _
  | cons record records ih =>
      rw [List.flatMap_cons, List.length_append, List.length_cons, encodeCapture, List.length_append,
        length_leBytes]
      omega

/-- The streams of the records read so far. -/
structure Streams.Groups (streams : Streams) (records : List (UInt32 × Bytes)) : Prop where
  order : ∀ connId, connId ∈ streams.order ↔ connId ∈ records.map Prod.fst
  known : ∀ connId, streams.conns.contains connId = true ↔ connId ∈ records.map Prod.fst
  bytes : ∀ connId, streams.conns[connId]?.getD [] = (project connId records).flatten

theorem Streams.Groups.add {streams : Streams} {records : List (UInt32 × Bytes)}
    (hgroups : streams.Groups records) (record : UInt32 × Bytes) :
    (streams.add record).Groups (records ++ [record]) := by
  obtain ⟨connId, input⟩ := record
  refine ⟨fun other => ?_, fun other => ?_, fun other => ?_⟩
  · rw [List.map_append, List.mem_append, ← hgroups.order]
    change other ∈ (if streams.conns.contains connId then streams.order
      else streams.order ++ [connId]) ↔ other ∈ streams.order ∨ other ∈ [connId]
    split
    · rename_i hknown
      have hmem : connId ∈ streams.order := (hgroups.order connId).mpr ((hgroups.known connId).mp hknown)
      refine ⟨.inl, ?_⟩
      rintro (hother | hother)
      · exact hother
      · rw [List.mem_singleton.mp hother]
        exact hmem
    · exact List.mem_append
  · rw [List.map_append, List.mem_append, ← hgroups.known]
    change (streams.conns.insert connId _).contains other = true ↔ _ ∨ other ∈ [connId]
    rw [Std.ExtTreeMap.contains_insert, Bool.or_eq_true, List.mem_singleton, beq_iff_eq,
      Std.LawfulEqOrd.compare_eq_iff_eq, or_comm, eq_comm (a := other)]
  · rw [project_append]
    change (streams.conns.insert connId _)[other]?.getD [] = _
    rw [Std.ExtTreeMap.getElem?_insert]
    by_cases hother : connId = other
    · subst hother
      rw [if_pos (by simp), Option.getD_some, project_cons_self, hgroups.bytes, List.flatten_append]
      simp [project]
    · rw [if_neg (by simpa using hother), project_cons_ne hother, hgroups.bytes]
      simp [project]

theorem groups_foldl (records : List (UInt32 × Bytes)) :
    (records.foldl Streams.add {}).Groups records := by
  induction records using List.reverseRecOn with
  | nil => exact ⟨by simp, by simp, by simp [project]⟩
  | append_singleton records record ih =>
      rw [List.foldl_append]
      exact ih.add record

variable {σ ρ : Type} {server : Server σ ρ}

theorem project_map_encode (encode : ρ → Bytes) (connId : UInt32) (log : List (UInt32 × ρ)) :
    project connId (log.map fun entry => (entry.1, encode entry.2)) = (project connId log).map encode := by
  rw [project, project, List.filter_map, List.map_map, List.map_map]
  rfl

/-- Every connection of the log is sent the bytes of its requests, and no other connection is
sent anything. -/
theorem streams_capture (server : Server σ ρ) (log : List (UInt32 × ρ)) :
    (∀ stream ∈ streams (server.capture log),
        stream.2 = (project stream.1 log).flatMap server.encode)
      ∧ ∀ connId, connId ∈ (streams (server.capture log)).map Prod.fst ↔ connId ∈ log.map Prod.fst := by
  let records := log.map fun entry => (entry.1, server.encode entry.2)
  have hcapture : server.capture log = records.flatMap fun record => encodeCapture record.1 record.2 := by
    rw [List.flatMap_map]
    rfl
  have hparse : parse (server.capture log).length (server.capture log) = records := by
    rw [hcapture]
    refine parse_encodeCapture (length_le_encodeCapture records) fun record hrecord => ?_
    obtain ⟨entry, -, rfl⟩ := List.mem_map.mp hrecord
    exact server.length_encode entry.2
  have hgroups := groups_foldl records
  have hkeys : records.map Prod.fst = log.map Prod.fst := List.map_map ..
  constructor
  · intro stream hstream
    rw [streams, hparse] at hstream
    obtain ⟨connId, -, rfl⟩ := List.mem_map.mp hstream
    rw [hgroups.bytes, project_map_encode]
    exact (List.flatMap_def ..).symm
  · intro connId
    rw [streams, hparse, List.map_map, ← hkeys, ← hgroups.order]
    exact iff_of_eq (congrArg (connId ∈ ·) (List.map_id _))

/-- The orders replay may lead to are those that agree with the log on every connection. -/
theorem schedules_iff (log schedule : List (UInt32 × ρ)) :
    server.Schedules (server.capture log) schedule ↔ SameOrder log schedule := by
  obtain ⟨hbytes, hkeys⟩ := streams_capture server log
  have hnone : ∀ (events : List (UInt32 × ρ)) connId, connId ∉ events.map Prod.fst ↔
      project connId events = [] := by
    intro events connId
    rw [project, List.map_eq_nil_iff, List.filter_eq_nil_iff, List.mem_map]
    constructor
    · intro habsent entry hentry hconn
      exact habsent ⟨entry, hentry, of_decide_eq_true hconn⟩
    · rintro habsent ⟨entry, hentry, hconn⟩
      exact habsent entry hentry (decide_eq_true hconn)
  constructor
  · rintro ⟨hsent, honly⟩ connId
    by_cases hconn : connId ∈ log.map Prod.fst
    · obtain ⟨stream, hstream, rfl⟩ := List.mem_map.mp ((hkeys connId).mpr hconn)
      rw [hsent stream hstream, hbytes stream hstream, server.frame_encode]
    · have habsent : connId ∉ schedule.map Prod.fst := by
        intro hmem
        obtain ⟨entry, hentry, rfl⟩ := List.mem_map.mp hmem
        exact hconn ((hkeys entry.1).mp (honly entry hentry))
      rw [(hnone log connId).mp hconn, (hnone schedule connId).mp habsent]
  · intro hsame
    refine ⟨fun stream hstream => ?_, fun entry hentry => ?_⟩
    · rw [hbytes stream hstream, server.frame_encode, hsame]
    · rw [hkeys]
      by_contra hconn
      have hempty := (hsame entry.1).symm.trans ((hnone log entry.1).mp hconn)
      exact (hnone schedule entry.1).mpr hempty (List.mem_map_of_mem hentry)

/-- States that requests lead to. -/
inductive Server.Reachable (server : Server σ ρ) : σ → Prop
  | init : server.Reachable server.init
  | step {state : σ} (request : ρ) : server.Reachable state → server.Reachable (server.step state request)

theorem Server.Reachable.exists_requests {state : σ} (hreachable : server.Reachable state) :
    ∃ requests : List ρ, requests.foldl server.step server.init = state := by
  induction hreachable with
  | init => exact ⟨[], rfl⟩
  | step request _ ih =>
      obtain ⟨requests, rfl⟩ := ih
      exact ⟨requests ++ [request], List.foldl_append⟩

/-- Over every capture log and every schedule of the replay threads: the fresh instance ends in the
state of the live one exactly if the server's requests commute. -/
theorem replay_rebuilds_iff (server : Server σ ρ) :
    (∀ log schedule, server.Schedules (server.capture log) schedule →
        final server.step server.init schedule = final server.step server.init log)
      ↔ ∀ state, server.Reachable state → ∀ first second,
        server.step (server.step state first) second = server.step (server.step state second) first := by
  constructor
  · intro hrebuilds state hreachable first second
    obtain ⟨requests, rfl⟩ := hreachable.exists_requests
    let before : List (UInt32 × ρ) := requests.map fun request => (1, request)
    have hbefore : final server.step server.init before = requests.foldl server.step server.init :=
      List.foldl_map
    have hsame : SameOrder (before ++ [(1, first), (2, second)]) (before ++ [(2, second), (1, first)]) := by
      intro connId
      rw [project_append, project_append]
      by_cases hone : connId = 1
      · subst hone
        rfl
      · by_cases htwo : connId = 2
        · subst htwo
          rfl
        · rw [project_cons_ne (Ne.symm hone), project_cons_ne (Ne.symm htwo),
            project_cons_ne (Ne.symm htwo), project_cons_ne (Ne.symm hone)]
    have hfinal := hrebuilds _ _ ((schedules_iff _ _).mpr hsame)
    rw [final_append, final_append, hbefore] at hfinal
    exact hfinal.symm
  · intro hcommute log schedule hschedules
    have hstep : ∀ state request, server.Reachable state → server.Reachable (server.step state request) :=
      fun _ request => .step request
    refine final_eq_of_sameOrder hstep (fun event _ other _ _ state hstate => ?_)
      ((schedules_iff log schedule).mp hschedules) .init
    exact hcommute state hstate other.2 event.2

/-- A server that keeps the last byte it was sent. -/
def register : Server UInt8 UInt8 where
  init := 0
  step _ byte := byte
  encode byte := [byte]
  frame input := input
  frame_encode requests := by simp
  length_encode _ := (by decide : 1 < 2 ^ 32)

/-- Two connections write the register, the second one last. Replay may send the first one last. -/
theorem replay_reorders_connections :
    ∃ log schedule, register.Schedules (register.capture log) schedule
      ∧ final register.step register.init schedule ≠ final register.step register.init log := by
  have hstreams : streams (register.capture [(1, 5), (2, 7)]) = [(1, [5]), (2, [7])] := by
    decide +kernel
  refine ⟨[(1, 5), (2, 7)], [(2, 7), (1, 5)], ?_, by decide⟩
  rw [Server.Schedules, hstreams]
  refine ⟨?_, by simp⟩
  simp only [List.forall_mem_cons]
  exact ⟨rfl, rfl, List.forall_mem_nil _⟩

end OneBarrier.Replay
