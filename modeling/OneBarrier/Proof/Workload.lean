import OneBarrier.Proof.Oracle
import OneBarrier.Proof.Replica

/-!
# The increment workload stays within the codec limits

The keys of the workload are a letter and a number, and the values it leaves are printed integers, so
an entry of a snapshot has a bound, and a snapshot has as many entries as there are keys at most.
-/

namespace OneBarrier

open Wire Utf8 Text Durable

/-! ### Sizes -/

theorem Oracle.length_asBytes_key {index : Nat} (hindex : index < 16777216) :
    (asBytes (Oracle.key index)).length ≤ 36 := by
  have hdigits : (Nat.toDigits 10 index).length ≤ 8 :=
    (Nat.length_toDigits_le_iff (by decide) (by decide)).mpr (by omega)
  have hchars : (Oracle.key index).toList.length ≤ 9 := by
    rw [Oracle.key, String.toList_append, List.length_append, toList_toString_nat]
    change 1 + _ ≤ 9
    omega
  have hbytes := length_asBytes_le_chars (Oracle.key index)
  omega

/-- A map whose keys are among those of a list is no larger than the list. -/
theorem BTreeMap.size_le {κ β : Type} [DecidableEq κ] [Ord κ] [Std.TransOrd κ] [Std.LawfulEqOrd κ]
    {map : BTreeMap κ β} {keys : List κ} (hkeys : ∀ key ∈ map, key ∈ keys) :
    map.size ≤ keys.length := by
  have hnodup : map.keys.Nodup := Std.ExtTreeMap.nodup_keys
  rw [← Std.ExtTreeMap.length_keys]
  exact (List.subperm_of_subset hnodup fun key hkey =>
    hkeys key (Std.ExtTreeMap.mem_keys.mp hkey)).length_le

namespace Oracle

/-- An increment by one of a client of the list, of one of the first `keys` keys. -/
structure Counts (clients : List UInt32) (keys : Nat) (op : Op) : Prop where
  client : op.client ∈ clients
  kind : ∃ index < keys, op.kind = .incr (key index) 1

/-- What such ops leave behind. -/
structure Tallied (clients : List UInt32) (keys : Nat) (core : Core KvStore) : Prop where
  marks : ∀ client ∈ core.applied, client ∈ clients
  entries : ∀ name value, core.state.map[name]? = some value →
    ∃ index < keys, ∃ count, name = key index ∧ value = asBytes (showI64 count)

variable {clients : List UInt32} {keys : Nat} {core : Core KvStore} {record : Record}
  {stream : List Record}

theorem tallied_init : Tallied clients keys (Core.init : Core KvStore) where
  marks _ hclient := absurd hclient Std.ExtTreeMap.not_mem_empty
  entries name value hget := by
    have hnone : (Core.init : Core KvStore).state.map[name]? = none :=
      Std.ExtTreeMap.getElem?_empty
    rw [hnone] at hget
    cases hget

theorem Tallied.deliver (htallied : Tallied clients keys core)
    (hcounts : Counts clients keys record.2) :
    Tallied clients keys ((dedup KvStore).deliver core record) := by
  obtain ⟨ts, op⟩ := record
  obtain ⟨index, hindex, hkind⟩ := hcounts.kind
  rw [← snd_applyDedup, Core.applyDedup]
  split
  · exact htallied
  · refine ⟨fun client hclient => ?_, fun name value hget => ?_⟩
    · rcases Std.ExtTreeMap.mem_insert.mp hclient with hsame | hold
      · rw [← Std.LawfulEqCmp.compare_eq_iff_eq.mp hsame]
        exact hcounts.client
      · exact htallied.marks client hold
    · change ((core.state.apply op).1.map)[name]? = some value at hget
      rw [KvStore.apply, hkind] at hget
      simp only [Std.ExtTreeMap.getElem?_insert] at hget
      split at hget
      · rename_i hsame
        exact ⟨index, hindex, _, (Std.LawfulEqCmp.compare_eq_iff_eq.mp hsame).symm,
          (Option.some.inj hget).symm⟩
      · exact htallied.entries name value hget

theorem tallied_serial (hstream : ∀ record ∈ stream, Counts clients keys record.2) :
    Tallied clients keys (serial KvStore stream) := by
  induction stream using List.reverseRecOn with
  | nil => exact tallied_init
  | append_singleton stream record ih =>
      rw [serial_concat]
      refine Tallied.deliver (ih fun other hother => ?_) (hstream record (by simp))
      exact hstream other (List.mem_append_left _ hother)

theorem Tallied.fits (htallied : Tallied clients keys core) (hclients : clients.length < 4294967296)
    (hkeys : keys ≤ 16777216) : core.Fits := by
  refine ⟨Nat.lt_of_le_of_lt (BTreeMap.size_le htallied.marks) hclients, ?_⟩
  have hsize : core.state.map.size ≤ keys := by
    have hnames : ∀ name ∈ core.state.map, name ∈ (List.range keys).map key := by
      intro name hname
      obtain ⟨value, hget⟩ :=
        Option.isSome_iff_exists.mp (Std.ExtTreeMap.mem_iff_isSome_getElem?.mp hname)
      obtain ⟨index, hindex, -, rfl, -⟩ := htallied.entries name value hget
      exact List.mem_map_of_mem (List.mem_range.mpr hindex)
    have hle := BTreeMap.size_le hnames
    rwa [List.length_map, List.length_range] at hle
  have hentry : ∀ entry ∈ core.state.map.toList, (KvStore.encodeEntry entry).length ≤ 122 := by
    rintro ⟨name, value⟩ hentry
    obtain ⟨index, hindex, count, rfl, rfl⟩ :=
      htallied.entries name value (Std.ExtTreeMap.mem_toList_iff_getElem?_eq_some.mp hentry)
    have hname := length_asBytes_key (Nat.lt_of_lt_of_le hindex hkeys)
    have hvalue := length_asBytes_showI64 count
    rw [KvStore.length_encodeEntry]
    dsimp only
    omega
  have hbody : ∀ entries : List (String × Bytes),
      (∀ entry ∈ entries, (KvStore.encodeEntry entry).length ≤ 122) →
        (entries.flatMap KvStore.encodeEntry).length ≤ 122 * entries.length := by
    intro entries hentries
    induction entries with
    | nil => exact Nat.le_refl 0
    | cons entry entries ih =>
        have hfirst := hentries entry List.mem_cons_self
        have hrest := ih fun other hother => hentries other (List.mem_cons_of_mem _ hother)
        rw [List.flatMap_cons, List.length_append, List.length_cons]
        omega
  have hlength := hbody core.state.map.toList hentry
  rw [Std.ExtTreeMap.length_toList] at hlength
  change (KvStore.snapshot core.state).length < 4294967296
  rw [KvStore.snapshot, List.length_append, length_lengthBytes]
  omega

theorem Counts.loggable {op : Op} (hcounts : Counts clients keys op) (hkeys : keys ≤ 16777216) :
    op.Loggable := by
  obtain ⟨index, hindex, hkind⟩ := hcounts.kind
  have hname := length_asBytes_key (Nat.lt_of_lt_of_le hindex hkeys)
  have hkey : op.key = key index := by rw [Op.key, hkind]
  constructor
  · rw [Op.Fits, hkind]
    exact Nat.lt_of_le_of_lt hname (by decide)
  · change op.encode.length < 4294967296
    simp only [Op.encode, List.length_append, List.length_cons, List.length_nil, length_leBytes,
      length_lengthBytes, hkey, Op.encodeBody, hkind]
    omega

/-- The workload's streams fit the log, and what they lead to fits a snapshot. -/
theorem streamFits_of_counts (hstream : ∀ record ∈ stream, Counts clients keys record.2)
    (hclients : clients.length < 4294967296) (hkeys : keys ≤ 16777216) :
    StreamFits KvStore stream where
  loggable record hrecord := (hstream record hrecord).loggable hkeys
  bounded _ _ := (tallied_serial fun record hrecord =>
    hstream record (List.mem_of_mem_take hrecord)).fits hclients hkeys

theorem counts_of_mem_clientOps {client : UInt32} {ops keys : UInt64} (hkeys : 1 ≤ keys)
    (hclient : client ∈ clients) {op : Op} (hop : op ∈ clientOps client ops keys) :
    Counts clients keys.toNat op := by
  obtain ⟨i, -, rfl⟩ := mem_clientOps.mp hop
  exact ⟨hclient, _, Nat.mod_lt i (UInt64.le_iff_toNat_le.mp hkeys), rfl⟩

end Oracle

end OneBarrier
