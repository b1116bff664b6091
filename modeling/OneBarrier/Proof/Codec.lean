import OneBarrier.State

/-!
# The codecs within their limits

Every length field is exact while it does not saturate. Under that one condition an op and a store
come back from their encodings, and an op's encoding is self-delimiting: it can be followed by
anything, and no proper prefix of it decodes.
-/

namespace OneBarrier

open Wire Utf8

theorem lengthBytes_of_lt {width length : Nat} (hlength : length < 256 ^ width) :
    lengthBytes width length = leBytes width length := by
  rw [lengthBytes, Nat.min_eq_left (by omega)]

@[simp]
theorem length_lengthBytes (width length : Nat) : (lengthBytes width length).length = width :=
  length_leBytes _ _

/-- A key whose 16-bit length field does not saturate. -/
def KeyFits (key : String) : Prop := (asBytes key).length < 2 ^ 16

/-- A value whose 32-bit length field does not saturate. -/
def ValueFits (value : Bytes) : Prop := value.length < 2 ^ 32

instance (key : String) : Decidable (KeyFits key) := inferInstanceAs (Decidable (_ < _))

instance (value : Bytes) : Decidable (ValueFits value) := inferInstanceAs (Decidable (_ < _))

def WriteFits (write : String × Option Bytes) : Prop :=
  KeyFits write.1 ∧ ∀ value ∈ write.2, ValueFits value

instance (write : String × Option Bytes) : Decidable (WriteFits write) :=
  inferInstanceAs (Decidable (_ ∧ _))

/-- The op codec's limits: no key, value or count of the op saturates its length field. -/
def Op.Fits (op : Op) : Prop :=
  match op.kind with
  | .set key value => KeyFits key ∧ ValueFits value
  | .incr key _ | .get key | .del key => KeyFits key
  | .txn writes => writes.length < 2 ^ 16 ∧ ∀ write ∈ writes, WriteFits write

instance (op : Op) : Decidable op.Fits := by
  unfold Op.Fits
  split <;> infer_instance

/-! ### Ops -/

theorem readKey_exact {key : String} (hkey : KeyFits key) :
    Exact readKey (lengthBytes 2 (asBytes key).length ++ asBytes key) key := by
  rw [lengthBytes_of_lt hkey]
  exact (u16_exact hkey).bind
    ((bytes_exact (asBytes key)).bind_nil (Exact.ofOption (fromUtf8_asBytes key)))

theorem readValue_exact {value : Bytes} (hvalue : ValueFits value) :
    Exact readValue (lengthBytes 4 value.length ++ value) value := by
  rw [lengthBytes_of_lt hvalue]
  refine (u32_exact_ofNat hvalue).bind (bytes_exact_of_length ?_)
  rw [UInt32.toNat_ofNat', Nat.mod_eq_of_lt hvalue]

theorem readWrite_exact {write : String × Option Bytes} (hwrite : WriteFits write) :
    Exact readWrite (encodeWrite write) write := by
  obtain ⟨key, present⟩ := write
  obtain ⟨hkey, hvalue⟩ := hwrite
  rw [encodeWrite]
  refine (readKey_exact hkey).bind ?_
  cases present with
  | none => exact (u8_exact 0).bind_nil (Exact.pure (key, none))
  | some value =>
      exact (u8_exact 1).bind
        ((readValue_exact (hvalue value rfl)).bind_nil (Exact.pure (key, some value)))

theorem readKind_exact {op : Op} (hfits : op.Fits) :
    Exact (readKind op.tag op.key) op.encodeBody op.kind := by
  obtain ⟨client, seq, kind⟩ := op
  cases kind with
  | set key value => exact (readValue_exact hfits.2).map _
  | incr key delta => exact (i64_exact delta).map _
  | get key => exact Exact.pure _
  | del key => exact Exact.pure _
  | txn writes =>
      obtain ⟨hcount, hwrites⟩ := hfits
      have htimes : Exact (times writes.length readWrite) (writes.flatMap encodeWrite) writes :=
        Exact.times writes fun write hwrite => readWrite_exact (hwrites write hwrite)
      change Exact (u16 >>= fun count => OpKind.txn <$> times count readWrite)
        (lengthBytes 2 writes.length ++ _) (OpKind.txn writes)
      rw [lengthBytes_of_lt hcount]
      exact (u16_exact hcount).bind (htimes.map _)

theorem Op.keyFits {op : Op} (hfits : op.Fits) : KeyFits op.key := by
  obtain ⟨client, seq, kind⟩ := op
  cases kind with
  | set key value => exact hfits.1
  | incr key delta => exact hfits
  | get key => exact hfits
  | del key => exact hfits
  | txn writes => exact (by decide : KeyFits "")

/-- **The op codec.** Within its limits an op is the one thing its encoding decodes to, whatever
follows, and a truncated encoding decodes to nothing. -/
theorem readOp_exact {op : Op} (hfits : op.Fits) : Exact readOp op.encode op := by
  rw [Op.encode, ← List.append_assoc (lengthBytes _ _)]
  exact (u8_exact op.tag).bind <| (u32_exact op.client).bind <| (u64_exact op.seq).bind <|
    (readKey_exact (Op.keyFits hfits)).bind <| (readKind_exact hfits).bind_nil (Exact.pure op)

theorem Op.decode_encode {op : Op} (hfits : op.Fits) : Op.decode op.encode = some op := by
  rw [Op.decode, (readOp_exact hfits).run_self, Option.map_some]

/-! ### What decodes -/

theorem readKey_gives : Gives readKey KeyFits := by
  refine u16_gives.bind fun length hlength => (Gives.bytes length).bind fun key hkey =>
    Gives.ofOption fun text htext => ?_
  have hle := length_asBytes_le htext
  rw [KeyFits]
  omega

theorem readValue_gives : Gives readValue ValueFits := by
  refine (Gives.any u32).bind fun length _ => ?_
  have hlength := length.toNat_lt
  refine ⟨fun hread => ?_⟩
  rw [ValueFits, (Gives.bytes length.toNat).holds hread]
  exact hlength

theorem readWrite_gives : Gives readWrite WriteFits := by
  refine readKey_gives.bind fun key hkey => (Gives.any u8).bind fun present _ => ?_
  split
  · refine readValue_gives.bind fun value hvalue => Gives.pure ⟨hkey, ?_⟩
    rintro other ⟨⟩
    exact hvalue
  · exact Gives.pure ⟨hkey, nofun⟩

theorem readKind_gives (tag : UInt8) {key : String} (hkey : KeyFits key) (client : UInt32)
    (seq : UInt64) : Gives (readKind tag key) fun kind => Op.Fits { client, seq, kind } := by
  unfold readKind
  split
  · exact readValue_gives.map _ fun value hvalue => ⟨hkey, hvalue⟩
  · exact (Gives.any i64).map _ fun _ _ => hkey
  · exact Gives.pure hkey
  · exact Gives.pure hkey
  · refine u16_gives.bind fun count hcount => (readWrite_gives.times count).map _ ?_
    rintro writes ⟨rfl, hwrites⟩
    exact ⟨hcount, hwrites⟩
  · exact Gives.ofOption nofun

/-- Nothing outside the limits is ever decoded. -/
theorem Op.fits_of_decode {input : Bytes} {op : Op} (hdecode : Op.decode input = some op) :
    op.Fits := by
  obtain ⟨⟨found, rest⟩, hread, rfl⟩ := Option.map_eq_some_iff.mp hdecode
  have hgives : Gives readOp Op.Fits :=
    (Gives.any u8).bind fun tag _ => (Gives.any u32).bind fun client _ =>
      (Gives.any u64).bind fun seq _ => readKey_gives.bind fun key hkey =>
        (readKind_gives tag hkey client seq).bind fun kind hkind => Gives.pure hkind
  exact hgives.holds hread

/-- **The op codec, exactly.** An op comes back from its encoding precisely if it is within the
limits; then it does so in front of anything, and no proper prefix of the encoding decodes. -/
theorem Op.decode_encode_iff (op : Op) :
    (Op.decode op.encode = some op ↔ op.Fits)
      ∧ (op.Fits → (∀ tail, Op.decode (op.encode ++ tail) = some op)
        ∧ ∀ front, front <+: op.encode → front ≠ op.encode → Op.decode front = none) := by
  refine ⟨⟨Op.fits_of_decode, Op.decode_encode⟩, fun hfits => ⟨fun tail => ?_, ?_⟩⟩
  · rw [Op.decode, (readOp_exact hfits).reads, Option.map_some]
  · intro front hfront hne
    obtain ⟨rest, hrest⟩ := hfront
    have hcut : front = op.encode.take front.length := by rw [← hrest, List.take_left]
    have hshort : front.length < op.encode.length := by
      have hlength := congrArg List.length hrest
      rw [List.length_append] at hlength
      have hnonempty : rest.length ≠ 0 := by
        intro hempty
        rw [List.eq_nil_of_length_eq_zero hempty, List.append_nil] at hrest
        exact hne hrest
      omega
    rw [hcut, Op.decode, (readOp_exact hfits).rejects _ hshort, Option.map_none]

theorem Op.length_encode_set (client : UInt32) (seq : UInt64) (key : String) (value : Bytes) :
    (Op.encode { client, seq, kind := .set key value }).length
      = (asBytes key).length + value.length + 19 := by
  simp only [Op.encode, Op.key, Op.encodeBody, List.length_append, length_leBytes,
    length_lengthBytes, List.length_cons, List.length_nil]
  omega

/-- A key one byte too long for its length field, and nothing behind it: the last byte of the key is
read as a value's length. -/
theorem decode_encode_of_long_key {client : UInt32} {seq : UInt64} {key : String} {front : Bytes}
    {last : UInt8} (hkey : asBytes key = front ++ [last]) (hfront : front.length = 2 ^ 16 - 1)
    (hlast : 2 ≤ last.toNat) :
    Op.decode (Op.encode { client, seq, kind := .set key [] }) = none := by
  have hfield : lengthBytes 2 (front ++ [last]).length = leBytes 2 (2 ^ 16 - 1) := by
    rw [lengthBytes, List.length_append, hfront]
    rfl
  have hbyte := last.toNat_lt
  have hfour : last :: [0, 0, 0, 0] = leBytes 4 last.toNat ++ [0] := by
    have hzero : last.toNat / 256 = 0 := by omega
    simp [leBytes, hzero]
  have hvalue : readValue (last :: [0, 0, 0, 0]) = none := by
    rw [hfour, readValue, (u32_exact_ofNat (by omega : last.toNat < 2 ^ 32)).run_bind, bytes,
      if_neg]
    rw [UInt32.toNat_ofNat', Nat.mod_eq_of_lt (by omega)]
    simp
    omega
  have hkind : ∀ name : String, readKind 0 name (last :: [0, 0, 0, 0]) = none := by
    intro name
    change (readValue (last :: [0, 0, 0, 0])).bind _ = none
    rw [hvalue, Option.bind_none]
  have htail : (readKey >>= fun name => readKind 0 name >>= fun kind =>
      (pure { client, seq, kind } : Reader Op))
      (leBytes 2 (2 ^ 16 - 1) ++ (front ++ (last :: [0, 0, 0, 0]))) = none := by
    change ((u16 >>= fun length => bytes length >>= fun key => ofOption (fromUtf8 key)) _).bind _
      = none
    rw [(u16_exact (by decide : 2 ^ 16 - 1 < 2 ^ 16)).run_bind,
      (bytes_exact_of_length hfront).run_bind, ofOption]
    cases fromUtf8 front with
    | none => rfl
    | some name =>
        change (readKind 0 name (last :: [0, 0, 0, 0])).bind _ = none
        rw [hkind, Option.bind_none]
  have hencode : Op.encode { client, seq, kind := .set key [] }
      = [0] ++ (leBytes 4 client.toNat ++ (leBytes 8 seq.toNat
        ++ (leBytes 2 (2 ^ 16 - 1) ++ (front ++ (last :: [0, 0, 0, 0]))))) := by
    simp only [Op.encode, Op.tag, Op.key, Op.encodeBody, hkey, hfield, List.append_assoc]
    rfl
  rw [Op.decode, hencode, readOp, (u8_exact 0).run_bind, (u32_exact client).run_bind,
    (u64_exact seq).run_bind, htail, Option.map_none]

theorem exists_i64 {input : Bytes} (hlength : 8 ≤ input.length) :
    ∃ value rest, i64 input = some (value, rest) := by
  have hbytes : bytes 8 input = some (input.take 8, input.drop 8) := if_pos hlength
  refine ⟨(UInt64.ofNat (leNat (input.take 8))).toInt64, input.drop 8, ?_⟩
  change (((bytes 8 input).bind _).bind _).bind _ = _
  rw [hbytes]
  rfl

/-- The same with an increment behind it: the key comes back without its last byte, and that byte
is read as part of the amount. -/
theorem decode_encode_incr_of_long_key {client : UInt32} {seq : UInt64} {key short : String}
    {last : UInt8} (hkey : asBytes key = asBytes short ++ [last])
    (hshort : (asBytes short).length = 2 ^ 16 - 1) (delta : Int64) :
    ∃ other, Op.decode (Op.encode { client, seq, kind := .incr key delta })
      = some { client, seq, kind := .incr short other } := by
  have hfield : lengthBytes 2 (asBytes short ++ [last]).length = leBytes 2 (asBytes short).length := by
    rw [lengthBytes, List.length_append, hshort]
    rfl
  have hencode : Op.encode { client, seq, kind := .incr key delta }
      = [1] ++ (leBytes 4 client.toNat ++ (leBytes 8 seq.toNat ++ ((lengthBytes 2 (asBytes short).length
        ++ asBytes short) ++ (last :: leBytes 8 delta.toUInt64.toNat)))) := by
    simp only [Op.encode, Op.tag, Op.key, Op.encodeBody, hkey, hfield, List.append_assoc]
    rw [lengthBytes_of_lt (by omega)]
    rfl
  obtain ⟨other, rest, hother⟩ : ∃ other rest,
      readKind 1 short (last :: leBytes 8 delta.toUInt64.toNat) = some (.incr short other, rest) := by
    have hlength : 8 ≤ (last :: leBytes 8 delta.toUInt64.toNat).length := by simp
    generalize last :: leBytes 8 delta.toUInt64.toNat = input at hlength
    obtain ⟨value, rest, hvalue⟩ := exists_i64 hlength
    refine ⟨value, rest, ?_⟩
    change (i64 input).bind _ = _
    rw [hvalue]
    rfl
  refine ⟨other, ?_⟩
  rw [Op.decode, hencode, readOp, (u8_exact 1).run_bind, (u32_exact client).run_bind,
    (u64_exact seq).run_bind, (readKey_exact (by rw [KeyFits]; omega)).run_bind]
  generalize last :: leBytes 8 delta.toUInt64.toNat = input at hother
  have hop : (readKind 1 short >>= fun kind => (pure { client, seq, kind } : Reader Op)) input
      = some ({ client, seq, kind := .incr short other }, rest) :=
    Option.bind_eq_some_iff.mpr ⟨_, hother, rfl⟩
  rw [hop, Option.map_some]

/-- More writes than the count field holds: the ones it counts come back. -/
theorem decode_encode_of_many_writes {client : UInt32} {seq : UInt64}
    {front rest : List (String × Option Bytes)} (hfront : front.length = 2 ^ 16 - 1)
    (hfits : ∀ write ∈ front, WriteFits write) :
    Op.decode (Op.encode { client, seq, kind := .txn (front ++ rest) })
      = some { client, seq, kind := .txn front } := by
  have hcount : lengthBytes 2 (front ++ rest).length = leBytes 2 front.length := by
    have hlong : 256 ^ 2 - 1 ≤ (front ++ rest).length := by
      rw [List.length_append, hfront]
      omega
    rw [lengthBytes, Nat.min_eq_right hlong, hfront]
    rfl
  have htimes : Exact (times front.length readWrite) (front.flatMap encodeWrite) front :=
    Exact.times front fun write hwrite => readWrite_exact (hfits write hwrite)
  have hkind : readKind 4 "" (leBytes 2 front.length ++ (front.flatMap encodeWrite
      ++ rest.flatMap encodeWrite)) = some (.txn front, rest.flatMap encodeWrite) := by
    change (u16 >>= fun count => OpKind.txn <$> times count readWrite) _ = _
    rw [(u16_exact (by omega : front.length < 2 ^ 16)).run_bind]
    exact (htimes.map OpKind.txn).reads _
  have hencode : Op.encode { client, seq, kind := .txn (front ++ rest) }
      = [4] ++ (leBytes 4 client.toNat ++ (leBytes 8 seq.toNat
        ++ ((lengthBytes 2 (asBytes "").length ++ asBytes "") ++ (leBytes 2 front.length
          ++ (front.flatMap encodeWrite ++ rest.flatMap encodeWrite))))) := by
    simp only [Op.encode, Op.tag, Op.key, Op.encodeBody, hcount, List.flatMap_append,
      List.append_assoc]
  rw [Op.decode, hencode, readOp, (u8_exact 4).run_bind, (u32_exact client).run_bind,
    (u64_exact seq).run_bind, (readKey_exact (by decide : KeyFits "")).run_bind]
  change ((readKind 4 "" _).bind _).map Prod.fst = _
  rw [hkind]
  rfl

/-! ### Stores -/

/-- Inserting a map's entries one by one, in order, rebuilds the map. -/
theorem BTreeMap.foldl_insert_toList {κ β : Type} [DecidableEq κ] [Ord κ] [Std.TransOrd κ]
    [Std.LawfulEqOrd κ] (map : BTreeMap κ β) :
    map.toList.foldl (fun map entry => map.insert entry.1 entry.2) ∅ = map := by
  rw [← Std.ExtTreeMap.ofList_eq_foldl]
  apply Std.ExtTreeMap.ext_getElem?
  intro key
  have hdistinct := map.distinct_keys_toList
  cases hget : map[key]? with
  | some value =>
      have hmem := Std.ExtTreeMap.mem_toList_iff_getElem?_eq_some.mpr hget
      exact Std.ExtTreeMap.getElem?_ofList_of_mem Std.ReflCmp.compare_self hdistinct hmem
  | none =>
      apply Std.ExtTreeMap.getElem?_ofList_of_contains_eq_false
      rw [Std.ExtTreeMap.map_fst_toList_eq_keys, Std.ExtTreeMap.contains_keys]
      simpa [← Std.ExtTreeMap.contains_iff_mem] using hget

namespace KvStore

def EntryFits (entry : String × Bytes) : Prop := KeyFits entry.1 ∧ ValueFits entry.2

/-- The snapshot codec's limits for a store. -/
def Fits (store : KvStore) : Prop :=
  store.map.size < 2 ^ 32 ∧ ∀ entry ∈ store.map.toList, EntryFits entry

theorem readEntry_exact {entry : String × Bytes} (hentry : EntryFits entry) :
    Exact readEntry (encodeEntry entry) (asBytes entry.1, entry.2) := by
  rw [encodeEntry, lengthBytes_of_lt hentry.1]
  exact (u16_exact hentry.1).bind <| (bytes_exact (asBytes entry.1)).bind <|
    (readValue_exact hentry.2).bind_nil (Exact.pure (asBytes entry.1, entry.2))

theorem restoreEntries_encode (entries : List (String × Bytes)) (rest : Bytes)
    (hentries : ∀ entry ∈ entries, EntryFits entry) (map : BTreeMap String Bytes) :
    restoreEntries entries.length (entries.flatMap encodeEntry ++ rest) map
      = entries.foldl (fun map entry => map.insert entry.1 entry.2) map := by
  induction entries generalizing map with
  | nil => rfl
  | cons entry entries ih =>
      have hread := (readEntry_exact (hentries entry List.mem_cons_self)).reads
        (entries.flatMap encodeEntry ++ rest)
      rw [List.length_cons, List.flatMap_cons, List.append_assoc, restoreEntries, hread]
      simp only [fromUtf8_asBytes, List.foldl_cons]
      exact ih (fun entry hentry => hentries entry (List.mem_cons_of_mem _ hentry)) _

/-- **The snapshot codec.** -/
theorem restore_snapshot {store : KvStore} (hfits : store.Fits) :
    restore store.snapshot = store := by
  have hcount := (u32_exact_ofNat hfits.1).reads (store.map.toList.flatMap encodeEntry)
  have hentries := restoreEntries_encode store.map.toList [] hfits.2 ∅
  rw [List.append_nil, Std.ExtTreeMap.length_toList, BTreeMap.foldl_insert_toList] at hentries
  rw [restore, snapshot, lengthBytes_of_lt hfits.1, hcount]
  simp only [UInt32.toNat_ofNat', Nat.mod_eq_of_lt hfits.1]
  rw [hentries]

theorem length_encodeEntry (entry : String × Bytes) :
    (encodeEntry entry).length = (asBytes entry.1).length + entry.2.length + 6 := by
  simp only [encodeEntry, List.length_append, length_lengthBytes]
  omega

theorem length_le_flatMap_encodeEntry (entries : List (String × Bytes)) :
    entries.length ≤ (entries.flatMap encodeEntry).length := by
  induction entries with
  | nil => simp
  | cons entry entries ih =>
      rw [List.flatMap_cons, List.length_append, length_encodeEntry, List.length_cons]
      omega

theorem length_value_le_flatMap_encodeEntry {entries : List (String × Bytes)}
    {entry : String × Bytes} (hmem : entry ∈ entries) :
    entry.2.length ≤ (entries.flatMap encodeEntry).length := by
  induction entries with
  | nil => simp at hmem
  | cons head tail ih =>
      rw [List.flatMap_cons, List.length_append, length_encodeEntry]
      rcases List.mem_cons.mp hmem with rfl | htail
      · omega
      · have hle := ih htail
        omega

/-- A snapshot below `2^32` bytes has room for no oversized value and no oversized count, so the
keys are all that is left to check. -/
theorem fits_of_length_snapshot {store : KvStore} (hkeys : ∀ key ∈ store.map, KeyFits key)
    (hbody : store.snapshot.length < 2 ^ 32) : store.Fits := by
  rw [snapshot, List.length_append, length_lengthBytes] at hbody
  refine ⟨?_, ?_⟩
  · have hcount := length_le_flatMap_encodeEntry store.map.toList
    rw [Std.ExtTreeMap.length_toList] at hcount
    omega
  · intro entry hentry
    have hvalue := length_value_le_flatMap_encodeEntry hentry
    refine ⟨hkeys entry.1 ?_, by rw [ValueFits]; omega⟩
    have hget := Std.ExtTreeMap.mem_toList_iff_getElem?_eq_some.mp hentry
    exact Std.ExtTreeMap.mem_iff_isSome_getElem?.mpr (by simp [hget])

theorem keyFits_write {map : BTreeMap String Bytes} {entry : String × Option Bytes}
    (hentry : KeyFits entry.1) (hkeys : ∀ key ∈ map, KeyFits key) :
    ∀ key ∈ write map entry, KeyFits key := by
  intro key hkey
  obtain ⟨name, value⟩ := entry
  cases value with
  | none => exact hkeys key (Std.ExtTreeMap.mem_of_mem_erase hkey)
  | some value =>
      rcases Std.ExtTreeMap.mem_insert.mp hkey with hsame | hmem
      · rwa [← Std.LawfulEqCmp.compare_eq_iff_eq.mp hsame]
      · exact hkeys key hmem

theorem keyFits_apply {store : KvStore} {op : Op} (hfits : op.Fits)
    (hkeys : ∀ key ∈ store.map, KeyFits key) :
    ∀ key ∈ (store.apply op).1.map, KeyFits key := by
  obtain ⟨client, seq, kind⟩ := op
  cases kind with
  | set name value => exact @keyFits_write _ (name, some value) hfits.1 hkeys
  | incr name delta =>
      exact @keyFits_write _ (name, some (asBytes (Text.showI64 _))) hfits hkeys
  | del name => exact @keyFits_write _ (name, none) hfits hkeys
  | get name => exact hkeys
  | txn writes =>
      have hfold : ∀ (pending : List (String × Option Bytes)) (map : BTreeMap String Bytes),
          (∀ entry ∈ pending, KeyFits entry.1) → (∀ key ∈ map, KeyFits key) →
            ∀ key ∈ pending.foldl write map, KeyFits key := by
        intro pending
        induction pending with
        | nil => exact fun map _ hmap => hmap
        | cons entry pending ih =>
            intro map hpending hmap
            refine ih _ (fun other hother => hpending other (List.mem_cons_of_mem _ hother)) ?_
            exact keyFits_write (hpending entry List.mem_cons_self) hmap
      exact hfold writes store.map (fun entry hentry => (hfits.2 entry hentry).1) hkeys

end KvStore

/-- The state machine's snapshots give back the states its ops lead to. -/
class LawfulStateMachine (S : Type) [StateMachine S] where
  Encodable : S → Prop
  encodable_default : Encodable (StateMachine.default : S)
  length_default : (StateMachine.snapshot (StateMachine.default : S)).length < 2 ^ 32
  encodable_apply : ∀ {state : S} {op : Op},
    op.Fits → Encodable state → Encodable (StateMachine.apply state op).1
  apply_ne_suppressed : ∀ (state : S) (op : Op), (StateMachine.apply state op).2 ≠ .suppressed
  restore_snapshot : ∀ {state : S}, Encodable state →
    (StateMachine.snapshot state).length < 2 ^ 32 →
      StateMachine.restore (StateMachine.snapshot state) = state

instance : LawfulStateMachine KvStore where
  Encodable store := ∀ key ∈ store.map, KeyFits key
  encodable_default := fun _ hkey => absurd hkey Std.ExtTreeMap.not_mem_empty
  length_default := by decide
  encodable_apply := KvStore.keyFits_apply
  apply_ne_suppressed := by
    intro store op
    obtain ⟨client, seq, kind⟩ := op
    cases kind <;> exact Output.noConfusion
  restore_snapshot := fun hkeys hbody =>
    KvStore.restore_snapshot (KvStore.fits_of_length_snapshot hkeys hbody)

end OneBarrier
