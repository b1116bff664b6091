import OneBarrier.Proof.Codec
import OneBarrier.Durable

/-!
# Reading the log back

The log is split into complete records from the front. Bytes appended behind a log that ends at a
record boundary are split on their own; bytes appended behind a partial record are swallowed by it.
-/

namespace OneBarrier.Durable

open Wire

/-- The records of a log file and the partial record behind them. -/
def split (raw : Bytes) : List (UInt64 × Bytes) × Bytes := splitRecords raw.length raw

theorem readHeader_takes : Takes readHeader 12 :=
  u64_takes.bind fun _ => u32_takes.bind fun _ => Takes.pure _

theorem splitRecords_eq_split {fuel : Nat} {raw : Bytes} (hfuel : raw.length ≤ fuel) :
    splitRecords fuel raw = split raw := by
  unfold split
  generalize hlen : raw.length = length at hfuel ⊢
  induction length using Nat.strong_induction_on generalizing fuel raw with
  | _ length ih =>
      cases hread : readHeader raw with
      | none => cases fuel <;> cases length <;> simp [splitRecords, hread]
      | some result =>
          obtain ⟨⟨ts, size⟩, rest⟩ := result
          have hrest := readHeader_takes.length hread
          obtain ⟨fuel, rfl⟩ : ∃ n, fuel = n + 1 := ⟨fuel - 1, by omega⟩
          obtain ⟨length, rfl⟩ : ∃ n, length = n + 1 := ⟨length - 1, by omega⟩
          have hdrop : (rest.drop size).length ≤ rest.length := by simp
          have hleft : splitRecords fuel (rest.drop size) = _ :=
            ih (rest.drop size).length (by omega) rfl (by omega)
          have hright : splitRecords length (rest.drop size) = _ :=
            ih (rest.drop size).length (by omega) rfl (by omega)
          simp only [splitRecords, hread, hleft, hright]

theorem split_of_none {raw : Bytes} (hread : readHeader raw = none) : split raw = ([], raw) := by
  unfold split
  cases raw.length <;> simp [splitRecords, hread]

theorem split_of_some {raw rest : Bytes} {ts : UInt64} {size : Nat}
    (hread : readHeader raw = some ((ts, size), rest)) :
    split raw =
      if size ≤ rest.length then
        ((ts, rest.take size) :: (split (rest.drop size)).1, (split (rest.drop size)).2)
      else ([], raw) := by
  have hrest := readHeader_takes.length hread
  obtain ⟨length, hlength⟩ : ∃ n, raw.length = n + 1 := ⟨raw.length - 1, by omega⟩
  have htail : splitRecords length (rest.drop size) = split (rest.drop size) :=
    splitRecords_eq_split (by simp; omega)
  rw [split, hlength, splitRecords, hread]
  simp only [htail]

/-- Bytes behind a log are split together with the partial record at its end. -/
theorem split_append_torn (raw more : Bytes) :
    split (raw ++ more)
      = ((split raw).1 ++ (split ((split raw).2 ++ more)).1, (split ((split raw).2 ++ more)).2) := by
  induction hlen : raw.length using Nat.strong_induction_on generalizing raw with
  | _ length ih =>
      cases hread : readHeader raw with
      | none =>
          rw [split_of_none hread]
          rfl
      | some result =>
          obtain ⟨⟨ts, size⟩, rest⟩ := result
          have hrest := readHeader_takes.length hread
          rw [split_of_some hread]
          by_cases hsize : size ≤ rest.length
          · have hmore : size ≤ (rest ++ more).length := by
              rw [List.length_append]
              omega
            have htail := ih (rest.drop size).length (by simp; omega) (rest.drop size) rfl
            rw [if_pos hsize, split_of_some (readHeader_takes.append hread more), if_pos hmore,
              List.take_append_of_le_length hsize, List.drop_append_of_le_length hsize, htail]
            rfl
          · rw [if_neg hsize]
            rfl

/-- Bytes behind a log that ends at a record boundary are split on their own. -/
theorem split_append {raw : Bytes} (hwhole : (split raw).2 = []) (more : Bytes) :
    split (raw ++ more) = ((split raw).1 ++ (split more).1, (split more).2) := by
  rw [split_append_torn, hwhole]
  rfl

/-- A payload whose 32-bit length field in the log does not saturate. -/
def PayloadFits (payload : Bytes) : Prop := payload.length < 2 ^ 32

instance (payload : Bytes) : Decidable (PayloadFits payload) := inferInstanceAs (Decidable (_ < _))

theorem readHeader_exact (ts : UInt64) {payload : Bytes} (hfits : PayloadFits payload) :
    Exact readHeader (leBytes 8 ts.toNat ++ lengthBytes 4 payload.length) (ts, payload.length) := by
  have hlength : (UInt32.ofNat payload.length).toNat = payload.length := by
    rw [UInt32.toNat_ofNat', Nat.mod_eq_of_lt hfits]
  have hpure : Exact (pure (ts, (UInt32.ofNat payload.length).toNat)) [] (ts, payload.length) := by
    rw [hlength]
    exact Exact.pure _
  rw [lengthBytes_of_lt hfits]
  exact (u64_exact ts).bind ((u32_exact_ofNat hfits).bind_nil hpure)

theorem split_encodeRecord {ts : UInt64} {payload : Bytes} (hfits : PayloadFits payload) :
    split (encodeRecord ts payload) = ([(ts, payload)], []) := by
  have hread := (readHeader_exact ts hfits).reads payload
  rw [List.append_assoc] at hread
  rw [encodeRecord, split_of_some hread, if_pos le_rfl]
  simp [split, splitRecords]

/-- Cut before its end, a record is a partial record: nothing of it is read. -/
theorem split_take_encodeRecord {ts : UInt64} {payload : Bytes} (hfits : PayloadFits payload)
    {cut : Nat} (hcut : cut < (encodeRecord ts payload).length) :
    split ((encodeRecord ts payload).take cut) = ([], (encodeRecord ts payload).take cut) := by
  have hheader := readHeader_exact ts hfits
  have hlen : (leBytes 8 ts.toNat ++ lengthBytes 4 payload.length).length = 12 := by simp
  have hrecord : encodeRecord ts payload
      = (leBytes 8 ts.toNat ++ lengthBytes 4 payload.length) ++ payload :=
    (List.append_assoc _ _ _).symm
  rw [hrecord] at hcut ⊢
  rw [List.length_append] at hcut
  by_cases hshort : cut < (leBytes 8 ts.toNat ++ lengthBytes 4 payload.length).length
  · have hnone := hheader.rejects cut hshort
    rw [List.take_append_of_le_length hshort.le]
    exact split_of_none hnone
  · rw [List.take_append, List.take_of_length_le (Nat.le_of_not_lt hshort),
      split_of_some (hheader.reads _), if_neg]
    rw [List.length_take]
    omega

/-- A payload too long for the length field: the record is read back as far as the field reaches, and
what is behind is read as further records. -/
theorem split_encodeRecord_of_long {ts : UInt64} {short more : Bytes}
    (hshort : short.length = 2 ^ 32 - 1) :
    split (encodeRecord ts (short ++ more)) = ((ts, short) :: (split more).1, (split more).2) := by
  have hfield : lengthBytes 4 (short ++ more).length = leBytes 4 (2 ^ 32 - 1) := by
    have hlong : 256 ^ 4 - 1 ≤ (short ++ more).length := by
      rw [List.length_append, hshort]
      omega
    rw [lengthBytes, Nat.min_eq_right hlong]
    rfl
  have hsaturated : (2 ^ 32 - 1 : Nat) < 2 ^ 32 := by decide
  have hnumber : (UInt32.ofNat (2 ^ 32 - 1)).toNat = 2 ^ 32 - 1 := by decide
  have hpure : Exact (pure (ts, (UInt32.ofNat (2 ^ 32 - 1)).toNat)) [] (ts, 2 ^ 32 - 1) := by
    rw [hnumber]
    exact Exact.pure _
  have hheader : Exact readHeader (leBytes 8 ts.toNat ++ leBytes 4 (2 ^ 32 - 1))
      (ts, 2 ^ 32 - 1) :=
    (u64_exact ts).bind ((u32_exact_ofNat hsaturated).bind_nil hpure)
  have hread := hheader.reads (short ++ more)
  have hle : 2 ^ 32 - 1 ≤ (short ++ more).length := by
    rw [List.length_append, hshort]
    omega
  rw [List.append_assoc, ← hfield] at hread
  rw [encodeRecord, split_of_some hread, if_pos hle, List.take_left' hshort, List.drop_left' hshort]

/-- One byte too long: the record is read back one byte short, and that byte is left behind it. -/
theorem split_encodeRecord_of_length_eq {ts : UInt64} {payload : Bytes}
    (hlength : payload.length = 2 ^ 32) :
    split (encodeRecord ts payload)
      = ([(ts, payload.take (2 ^ 32 - 1))], payload.drop (2 ^ 32 - 1)) := by
  have hshort : (payload.take (2 ^ 32 - 1)).length = 2 ^ 32 - 1 := by
    rw [List.length_take, hlength]
    omega
  have htail : readHeader (payload.drop (2 ^ 32 - 1)) = none := by
    cases hread : readHeader (payload.drop (2 ^ 32 - 1)) with
    | none => rfl
    | some result =>
        have htakes := readHeader_takes.length hread
        rw [List.length_drop] at htakes
        omega
  have hsplit := @split_encodeRecord_of_long ts _ (payload.drop (2 ^ 32 - 1)) hshort
  rwa [List.take_append_drop, split_of_none htail] at hsplit

/-! ### A log cut anywhere -/

/-- The records of a list that lie within the first bytes of their log. -/
def wholeWithin : Nat → List (UInt64 × Bytes) → List (UInt64 × Bytes)
  | _, [] => []
  | cut, record :: later =>
      if (encodeRecord record.1 record.2).length ≤ cut then
        record :: wholeWithin (cut - (encodeRecord record.1 record.2).length) later
      else []

theorem split_take_flatMap {records : List (UInt64 × Bytes)}
    (hfits : ∀ record ∈ records, PayloadFits record.2) (cut : Nat) :
    (split ((records.flatMap fun record => encodeRecord record.1 record.2).take cut)).1
      = wholeWithin cut records := by
  induction records generalizing cut with
  | nil => simp [wholeWithin, split, splitRecords]
  | cons record later ih =>
      have hrecord := hfits record List.mem_cons_self
      have hlater := ih fun other hother => hfits other (List.mem_cons_of_mem _ hother)
      rw [List.flatMap_cons, wholeWithin]
      by_cases hwhole : (encodeRecord record.1 record.2).length ≤ cut
      · have hsplit : split (encodeRecord record.1 record.2) = ([record], []) :=
          split_encodeRecord hrecord
        rw [if_pos hwhole, List.take_append, List.take_of_length_le hwhole,
          split_append (congrArg Prod.snd hsplit), hsplit, hlater]
        rfl
      · have hcut := Nat.not_le.mp hwhole
        rw [if_neg hwhole, List.take_append_of_le_length hcut.le, split_take_encodeRecord hrecord hcut]

theorem readHeader_of_length_le {input : Bytes} (hlength : 12 ≤ input.length) :
    readHeader input = some ((UInt64.ofNat (leNat (input.take 8)),
      (UInt32.ofNat (leNat ((input.drop 8).take 4))).toNat), input.drop 12) := by
  have hts : u64 input = some (UInt64.ofNat (leNat (input.take 8)), input.drop 8) := by
    change ((bytes 8 input).bind _).bind _ = _
    rw [bytes, if_pos (by omega)]
    rfl
  have hsize : u32 (input.drop 8)
      = some (UInt32.ofNat (leNat ((input.drop 8).take 4)), (input.drop 8).drop 4) := by
    change ((bytes 4 (input.drop 8)).bind _).bind _ = _
    rw [bytes, if_pos (by rw [List.length_drop]; omega)]
    rfl
  change (u64 input).bind _ = _
  rw [hts, Option.bind_some]
  change (u32 (input.drop 8)).bind _ = _
  rw [hsize, List.drop_drop]
  rfl

theorem readHeader_of_length_lt {input : Bytes} (hlength : input.length < 12) :
    readHeader input = none := by
  cases hread : readHeader input with
  | none => rfl
  | some result =>
      have htakes := readHeader_takes.length hread
      omega

/-- The payload of a record stands behind a header. -/
theorem exists_prefix_of_mem_split {raw : Bytes} {record : UInt64 × Bytes}
    (hrecord : record ∈ (split raw).1) :
    ∃ position, 12 ≤ position ∧ record.2 <+: raw.drop position := by
  induction hlen : raw.length using Nat.strong_induction_on generalizing raw with
  | _ length ih =>
      by_cases hheader : 12 ≤ raw.length
      · rw [split_of_some (readHeader_of_length_le hheader)] at hrecord
        split at hrecord
        · rcases List.mem_cons.mp hrecord with rfl | hlater
          · exact ⟨12, le_rfl, List.take_prefix _ _⟩
          · rw [List.drop_drop] at hlater
            obtain ⟨position, hposition, hpayload⟩ := ih _ (by simp; omega) hlater rfl
            rw [List.drop_drop] at hpayload
            exact ⟨_, by omega, hpayload⟩
        · cases hrecord
      · rw [split_of_none (readHeader_of_length_lt (Nat.not_le.mp hheader))] at hrecord
        cases hrecord

/-- Behind a partial record, the first record read starts in it, and no later one starts at the first
byte written. -/
theorem exists_prefix_of_mem_split_torn {torn more : Bytes} (htorn : split torn = ([], torn))
    {record : UInt64 × Bytes} (hrecord : record ∈ (split (torn ++ more)).1) :
    record.2 <+: (torn ++ more).drop 12
      ∨ ∃ position, 13 ≤ position ∧ record.2 <+: more.drop position := by
  by_cases hheader : 12 ≤ (torn ++ more).length
  · have hread := readHeader_of_length_le hheader
    rw [split_of_some hread] at hrecord
    generalize hsize : (UInt32.ofNat (leNat (((torn ++ more).drop 8).take 4))).toNat = size
      at hrecord hread
    split at hrecord
    · rcases List.mem_cons.mp hrecord with rfl | hlater
      · exact .inl <| List.take_prefix _ _
      · right
        have hlong : torn.length < 12 + size := by
          by_contra hshort
          have hread' := readHeader_of_length_le (by omega : 12 ≤ torn.length)
          have hsame := readHeader_takes.append hread' more
          rw [hread] at hsame
          obtain ⟨hfields, -⟩ := Prod.mk.inj (Option.some.inj hsame)
          rw [split_of_some hread', ← (Prod.mk.inj hfields).2, if_pos (by simp; omega)] at htorn
          cases htorn
        rw [List.drop_drop, List.drop_append, List.drop_of_length_le (by omega),
          List.nil_append] at hlater
        obtain ⟨position, hposition, hpayload⟩ := exists_prefix_of_mem_split hlater
        rw [List.drop_drop] at hpayload
        exact ⟨_, by omega, hpayload⟩
    · cases hrecord
  · rw [split_of_none (readHeader_of_length_lt (Nat.not_le.mp hheader))] at hrecord
    cases hrecord

theorem split_split_torn (raw : Bytes) : split (split raw).2 = ([], (split raw).2) := by
  have hself := split_append_torn raw []
  rw [List.append_nil, List.append_nil] at hself
  have hrecords := congrArg Prod.fst hself
  have htorn := congrArg Prod.snd hself
  exact Prod.ext (List.self_eq_append_right.mp hrecords) htorn.symm

theorem offset_of_lt {position length : Nat} (hlt : position + length < 2 ^ 64) :
    offset position length = position + length := Nat.mod_eq_of_lt hlt

theorem slice_of_le {raw : Bytes} {start length : Nat} (hle : start + length ≤ raw.length) :
    slice raw start (start + length) = some ((raw.drop start).take length) := by
  rw [slice, if_pos ⟨Nat.le_add_right _ _, hle⟩, Nat.add_sub_cancel_left]

theorem readLoop_eq_split {raw : Bytes} (hraw : raw.length < 2 ^ 63) {fuel p : Nat}
    (hp : p ≤ raw.length) (hfuel : raw.length - p < fuel) :
    readLoop raw fuel p = some (split (raw.drop p)).1 := by
  induction fuel generalizing p with
  | zero => omega
  | succ fuel ih =>
      rw [readLoop, offset_of_lt (by omega : p + 12 < 2 ^ 64)]
      by_cases hheader : p + 12 ≤ raw.length
      · have hlength : 12 ≤ (raw.drop p).length := by
          rw [List.length_drop]
          omega
        have hread := readHeader_of_length_le hlength
        have hsize : leNat (((raw.drop p).drop 8).take 4) < 2 ^ 32 := by
          have hlt := leNat_lt (((raw.drop p).drop 8).take 4)
          have hfour : (((raw.drop p).drop 8).take 4).length = 4 := by
            rw [List.length_take, List.length_drop]
            omega
          rwa [hfour] at hlt
        rw [UInt32.toNat_ofNat', Nat.mod_eq_of_lt hsize] at hread
        generalize hn : leNat (((raw.drop p).drop 8).take 4) = size at hread hsize
        rw [if_pos hheader, offset_of_lt (by omega : p + 8 < 2 ^ 64), slice_of_le (by omega),
          Option.bind_eq_bind, Option.bind_some, show p + 12 = p + 8 + 4 from rfl,
          slice_of_le (by omega), Option.bind_eq_bind, Option.bind_some, ← List.drop_drop, hn,
          split_of_some hread]
        dsimp only
        rw [offset_of_lt (by omega : p + 8 + 4 + size < 2 ^ 64)]
        by_cases hfull : raw.length < p + 8 + 4 + size
        · rw [if_pos hfull, if_neg (by simp only [List.length_drop]; omega)]
        · rw [if_neg hfull, slice_of_le (by omega), if_pos (by simp only [List.length_drop]; omega),
            Option.bind_some, ih (by omega) (by omega), Option.bind_some, List.drop_drop,
            List.drop_drop]
      · rw [if_neg hheader, split_of_none (readHeader_of_length_lt _)]
        rw [List.length_drop]
        omega

/-- A log written record by record. -/
def appendAll (disk : Disk) (records : List (UInt64 × Bytes)) : Disk :=
  records.foldl (fun disk record => (append .none disk record.1 record.2).2) disk

theorem oplog_appendAll (disk : Disk) (records : List (UInt64 × Bytes)) :
    (appendAll disk records).oplog.getD []
      = disk.oplog.getD [] ++ records.flatMap fun record => encodeRecord record.1 record.2 := by
  induction records generalizing disk with
  | nil => rw [appendAll, List.foldl_nil, List.flatMap_nil, List.append_nil]
  | cons record later ih =>
      calc (appendAll disk (record :: later)).oplog.getD []
          = (append .none disk record.1 record.2).2.oplog.getD []
              ++ later.flatMap (fun record => encodeRecord record.1 record.2) := ih _
        _ = disk.oplog.getD [] ++ (record :: later).flatMap
              (fun record => encodeRecord record.1 record.2) := by
            rw [append, Option.getD_some, List.append_assoc, List.flatMap_cons]

/-- **A log cut at any byte gives back the records before the cut.** And on any file the loop comes
to its end without leaving the file. -/
theorem readLog_cut {disk : Disk} (hempty : disk.oplog.getD [] = [])
    {records : List (UInt64 × Bytes)} (hfits : ∀ record ∈ records, PayloadFits record.2) (cut : Nat) :
    let written := appendAll disk records
    readLog { written with oplog := written.oplog.map (List.take cut) } = wholeWithin cut records
      ∧ ∀ raw : Bytes, raw.length < 2 ^ 63 →
        readLoop raw (raw.length + 1) 0 = some (readLog { disk with oplog := some raw }) := by
  intro written
  refine ⟨?_, fun raw hraw => ?_⟩
  · have hlog := oplog_appendAll disk records
    rw [hempty, List.nil_append] at hlog
    have hcut : (written.oplog.map (List.take cut)).getD [] = (written.oplog.getD []).take cut := by
      cases written.oplog with
      | none => exact List.take_nil.symm
      | some log => rfl
    rw [← split_take_flatMap hfits, ← hlog, ← hcut]
    rfl
  · rw [readLoop_eq_split hraw (Nat.zero_le _) (by omega), List.drop_zero]
    rfl

theorem readLog_cut_in_third :
    let written := appendAll Disk.empty [(1, [7, 8]), (2, []), (3, [9])]
    readLog { written with oplog := written.oplog.map (List.take 38) } = [(1, [7, 8]), (2, [])]
      ∧ readLoop (List.replicate 16 0) 17 0 = some [(0, [])] := by
  have hcut := @readLog_cut Disk.empty rfl [(1, [7, 8]), (2, []), (3, [9])] (by simp [PayloadFits]) 38
  exact ⟨hcut.1, hcut.2 (List.replicate 16 0) (by decide)⟩

end OneBarrier.Durable
