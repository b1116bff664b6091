import OneBarrier.Proof.Capture

/-!
# A capture log cut anywhere

The shim writes records and `ob-replay` reads them back, each on its own account of the format.
Whatever was written and wherever the file ends, every connection is sent its inputs of the whole
records.
-/

namespace OneBarrier.Replay

open Wire Interpose Interleave

/-- One record, as a reader of its own. -/
def readCapture : Reader (UInt32 × Bytes) := do
  let connId ← u32
  let length ← u32
  let input ← bytes length.toNat
  pure (connId, input)

theorem parse_succ (fuel : Nat) (raw : Bytes) :
    parse (fuel + 1) raw
      = (readCapture raw).elim [] fun read => read.1 :: parse fuel read.2 := by
  rw [parse]
  change _ = ((u32 raw).bind fun first => (u32 first.2).bind fun second =>
    (bytes second.1.toNat second.2).bind fun third => some ((first.1, third.1), third.2)).elim _ _
  cases u32 raw with
  | none => rfl
  | some first =>
      obtain ⟨connId, rest⟩ := first
      dsimp only [Option.bind_some]
      cases u32 rest with
      | none => rfl
      | some second =>
          obtain ⟨length, rest⟩ := second
          dsimp only [Option.bind_some]
          cases bytes length.toNat rest with
          | none => rfl
          | some third => rfl

theorem readCapture_exact {record : UInt32 × Bytes} (hlength : record.2.length < 2 ^ 32) :
    Exact readCapture (encodeCapture record.1 record.2) record := by
  have hnat : (UInt32.ofNat record.2.length).toNat = record.2.length :=
    UInt32.toNat_ofNat_of_lt' hlength
  refine (u32_exact record.1).bind ((u32_exact_ofNat hlength).bind ?_)
  rw [hnat]
  exact (bytes_exact record.2).map fun input => (record.1, input)

/-- The records of a list that lie within the first bytes of their log. -/
def wholeWithin : Nat → List (UInt32 × Bytes) → List (UInt32 × Bytes)
  | _, [] => []
  | cut, record :: later =>
      if (encodeCapture record.1 record.2).length ≤ cut then
        record :: wholeWithin (cut - (encodeCapture record.1 record.2).length) later
      else []

theorem length_wholeWithin_le (cut : Nat) (records : List (UInt32 × Bytes)) :
    (wholeWithin cut records).length
      ≤ ((records.flatMap fun record => encodeCapture record.1 record.2).take cut).length := by
  induction records generalizing cut with
  | nil => exact Nat.zero_le _
  | cons record later ih =>
      rw [wholeWithin]
      split
      · rename_i hwhole
        have hlater := ih (cut - (encodeCapture record.1 record.2).length)
        have hheader : 8 ≤ (encodeCapture record.1 record.2).length := by
          simp only [encodeCapture, List.length_append, length_leBytes]
          omega
        rw [List.length_take] at hlater ⊢
        rw [List.length_cons, List.flatMap_cons, List.length_append]
        omega
      · exact Nat.zero_le _

theorem parse_take {records : List (UInt32 × Bytes)}
    (hlength : ∀ record ∈ records, record.2.length < 2 ^ 32) {fuel cut : Nat}
    (hfuel : (wholeWithin cut records).length ≤ fuel) :
    parse fuel ((records.flatMap fun record => encodeCapture record.1 record.2).take cut)
      = wholeWithin cut records := by
  induction records generalizing fuel cut with
  | nil =>
      cases fuel with
      | zero => rfl
      | succ fuel => rw [List.flatMap_nil, List.take_nil]; rfl
  | cons record later ih =>
      have hexact := readCapture_exact (hlength record List.mem_cons_self)
      have hlater := fun other hother => hlength other (List.mem_cons_of_mem record hother)
      rw [wholeWithin] at hfuel ⊢
      rw [List.flatMap_cons, List.take_append]
      by_cases hwhole : (encodeCapture record.1 record.2).length ≤ cut
      · rw [if_pos hwhole] at hfuel ⊢
        obtain ⟨fuel, rfl⟩ := Nat.exists_eq_succ_of_ne_zero
          (Nat.ne_of_gt (Nat.lt_of_lt_of_le (Nat.succ_pos _) hfuel))
        rw [List.take_of_length_le hwhole, parse_succ, hexact.reads, Option.elim_some,
          ih hlater (Nat.le_of_succ_le_succ hfuel)]
      · have hcut := Nat.not_le.mp hwhole
        rw [if_neg hwhole, Nat.sub_eq_zero_of_le hcut.le, List.take_zero, List.append_nil]
        cases fuel with
        | zero => rfl
        | succ fuel => rw [parse_succ, hexact.rejects cut hcut, Option.elim_none]

/-! ### Grouping -/

theorem order_foldl (records : List (UInt32 × Bytes)) :
    (records.foldl Streams.add {}).order = (records.map Prod.fst).eraseDups := by
  induction records using List.reverseRecOn with
  | nil => rfl
  | append_singleton records record ih =>
      have hknown := (groups_foldl records).known record.1
      rw [List.foldl_append, List.foldl_cons, List.foldl_nil, List.map_append,
        List.eraseDups_append, ← ih]
      change (if _ then _ else _) = _
      by_cases hseen : record.1 ∈ records.map Prod.fst
      · rw [if_pos (hknown.mpr hseen)]
        simp [List.removeAll, hseen]
      · rw [if_neg (mt hknown.mp hseen)]
        simp [List.removeAll, hseen, List.eraseDups_cons]

theorem streams_take {records : List (UInt32 × Bytes)}
    (hlength : ∀ record ∈ records, record.2.length < 2 ^ 32) (cut : Nat) :
    streams ((records.flatMap fun record => encodeCapture record.1 record.2).take cut)
      = ((wholeWithin cut records).map Prod.fst).eraseDups.map fun connId =>
          (connId, (project connId (wholeWithin cut records)).flatten) := by
  have hgroups := groups_foldl (wholeWithin cut records)
  rw [streams, parse_take hlength (length_wholeWithin_le cut records)]
  rw [order_foldl]
  exact List.map_congr_left fun connId _ => congrArg (connId, ·) (hgroups.bytes connId)

end OneBarrier.Replay

namespace OneBarrier.Interpose

open Wire

/-- The record that a call adds to the log. -/
def Shim.record (shim : Shim) : Call → Option (UInt32 × Bytes)
  | .read fd input _ => (shim.captures fd input).map fun connId => (connId, input)
  | _ => none

/-- The records that calls add to the log, in order. -/
def Shim.records (shim : Shim) : List Call → List (UInt32 × Bytes)
  | [] => []
  | call :: calls => (shim.record call).toList ++ (shim.step call).records calls

theorem Shim.step_record {shim : Shim} (hcapturing : shim.env.capture = true) (call : Call) :
    (shim.step call).env = shim.env
      ∧ (shim.step call).files.capture = shim.files.capture.map
          (· ++ (shim.record call).toList.flatMap fun record => encodeCapture record.1 record.2) := by
  have hsame : shim.files.capture = shim.files.capture.map (· ++ []) := by simp
  cases call with
  | accept fd =>
      rw [step]
      split
      · exact ⟨rfl, hsame⟩
      · exact ⟨rfl, hsame⟩
  | close fd =>
      rw [step]
      split
      · exact ⟨rfl, hsame⟩
      · exact ⟨rfl, hsame⟩
  | read fd input mono =>
      rw [step, record, capture]
      cases shim.captures fd input with
      | none => exact ⟨rfl, hsame⟩
      | some connId =>
          dsimp only [Option.map_some, Option.toList_some]
          rw [if_pos hcapturing, List.flatMap_singleton]
          exact ⟨rfl, rfl⟩

/-- What calls add to the log is the encoding of their records. -/
theorem Shim.run_records {shim : Shim} (hcapturing : shim.env.capture = true) (calls : List Call) :
    (calls.foldl Shim.step shim).files.capture = shim.files.capture.map
      (· ++ (shim.records calls).flatMap fun record => encodeCapture record.1 record.2) := by
  induction calls generalizing shim with
  | nil => simp [records]
  | cons call calls ih =>
      obtain ⟨henv, hfile⟩ := shim.step_record hcapturing call
      rw [List.foldl_cons, ih (henv ▸ hcapturing), hfile, Option.map_map, records,
        List.flatMap_append]
      congr 1
      funext log
      exact List.append_assoc ..

theorem Shim.records_ne_nil {shim : Shim} {calls : List Call} :
    ∀ record ∈ shim.records calls, record.2 ≠ [] := by
  induction calls generalizing shim with
  | nil => simp [records]
  | cons call calls ih =>
      intro record hrecord
      rw [records, List.mem_append] at hrecord
      rcases hrecord with hfirst | hlater
      · cases call with
        | accept fd => simp [Shim.record] at hfirst
        | close fd => simp [Shim.record] at hfirst
        | read fd input mono =>
            rw [Shim.record, captures] at hfirst
            split at hfirst
            · simp at hfirst
            · rename_i hinput
              rw [Option.mem_toList, Option.map_eq_some_iff] at hfirst
              obtain ⟨connId, -, rfl⟩ := hfirst
              exact fun hnil => hinput (.inl hnil)
      · exact ih record hlater

/-- **Writer and reader agree.** Every sequence of calls leaves in the log the encodings of its
records. And of any records below four gigabytes, with the file cut anywhere, the replay sends the
connections of the whole records, in the order in which they first appear and each once, and to each
of them its inputs in order. -/
theorem streams_of_records :
    (∀ (shim : Shim) (calls : List Call) (log : Bytes), shim.env.capture = true →
        shim.files.capture = some log →
          (calls.foldl Shim.step shim).files.capture
              = some (log ++ (shim.records calls).flatMap fun record =>
                  encodeCapture record.1 record.2)
            ∧ ∀ record ∈ shim.records calls, record.2 ≠ [])
      ∧ ∀ (records : List (UInt32 × Bytes)) (cut : Nat),
          (∀ record ∈ records, record.2.length < 2 ^ 32) →
            Replay.streams
                ((records.flatMap fun record => encodeCapture record.1 record.2).take cut)
              = ((Replay.wholeWithin cut records).map Prod.fst).eraseDups.map fun connId =>
                  (connId,
                    (Interleave.project connId (Replay.wholeWithin cut records)).flatten) := by
  refine ⟨fun shim calls log hcapturing hlog => ⟨?_, Shim.records_ne_nil⟩,
    fun records cut hlength => Replay.streams_take hlength cut⟩
  rw [Shim.run_records hcapturing, hlog]
  rfl

/-- Two connections take turns, and the file ends inside the last record. -/
theorem streams_of_two_connections :
    (([Call.accept 4, .read 4 [1, 2] 0].foldl Shim.step
          (Shim.start { capture := true } 0 0 {})).files.capture
        = some ([] ++ [(1, [1, 2])].flatMap fun record => encodeCapture record.1 record.2))
      ∧ Replay.streams (([(7, [1, 2]), (3, [9]), (7, [4]), (3, [5])].flatMap fun record =>
          encodeCapture record.1 record.2).take 35) = [(7, [1, 2, 4]), (3, [9])] := by
  have hwritten := streams_of_records.1 (Shim.start { capture := true } 0 0 {})
    [.accept 4, .read 4 [1, 2] 0] [] rfl rfl
  have hread := streams_of_records.2 [(7, [1, 2]), (3, [9]), (7, [4]), (3, [5])] 35 (by decide)
  exact ⟨hwritten.1, hread⟩

end OneBarrier.Interpose
