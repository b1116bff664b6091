import OneBarrier.Failover
import OneBarrier.Proof.Accounts
import OneBarrier.Proof.Workload

/-!
# The report on a crash is good

The victim has taken a part of the workload, each op once, so no key of it counts more than the whole;
its directory recovers to that part. What it adopts then is the survivor's state, whatever it had of
its own.
-/

namespace OneBarrier.Oracle

open Durable LawfulStateMachine

variable {left : UInt32 → List Op} {delivered : List Op} {engine : Engine KvStore} {disk : Disk}

/-! ### A part of the stream -/

theorem feed_append (front back : List Record) (engine : Engine KvStore) (disk : Disk)
    (applied : Nat) :
    feed engine disk applied (front ++ back)
      = feed (feed engine disk applied front).1 (feed engine disk applied front).2.1
          (feed engine disk applied front).2.2 back := by
  induction front generalizing engine disk applied with
  | nil => rfl
  | cons record front ih =>
      obtain ⟨ts, op⟩ := record
      obtain ⟨out, next, after, hdeliver⟩ := deliver_clean_ok engine disk ts op
      rw [List.cons_append, feed, feed, hdeliver]
      exact ih next after _

/-- The crash leaves the victim as a part of what it was handed left it. -/
theorem victimRun_eq_feed {crashAfter applied : Nat} {batches : List (List Record)}
    {victim : Engine KvStore × Disk}
    (hvictim : victimRun crashAfter engine disk applied batches = some victim) :
    ∃ front back, batches.flatten = front ++ back
      ∧ victim = ((feed engine disk applied front).1, (feed engine disk applied front).2.1) := by
  induction batches generalizing engine disk applied with
  | nil => cases hvictim
  | cons batch batches ih =>
      rw [victimRun] at hvictim
      split at hvictim
      · exact ⟨batch, batches.flatten, rfl, (Option.some.inj hvictim).symm⟩
      · obtain ⟨front, back, hflatten, hfeed⟩ := ih hvictim
        refine ⟨batch ++ front, back, ?_, ?_⟩
        · rw [List.flatten_cons, hflatten, List.append_assoc]
        · rw [feed_append]
          exact hfeed

/-- A part of a delivery takes a part of the ops, each once. -/
theorem feed_of_delivers_part {clients : List UInt32} (hnodup : clients.Nodup)
    {front back : List Record} (hstream : Delivers left delivered (front ++ back))
    (hclients : ∀ client, client ∉ clients → left client = [])
    (hfed : Fed left delivered engine) (disk : Disk) (applied : Nat) :
    ∃ order later : List Op, (order ++ later).Perm (delivered ++ clients.flatMap left)
      ∧ (feed engine disk applied front).1.state = taken order := by
  induction front generalizing left delivered engine disk applied with
  | nil => exact ⟨delivered, clients.flatMap left, .refl _, hfed.state⟩
  | cons record front ih =>
      rw [List.cons_append] at hstream
      cases hstream with
      | @next _ _ rest op _ ts client hclient hstream =>
          have hop : op ∈ left client := hclient ▸ List.mem_cons_self
          have hfresh : engine.highWater op.client < op.seq := by
            rw [hfed.owned client op hop]
            exact hfed.ahead client op hop
          have hmem : client ∈ clients := by
            by_contra hout
            rw [hclients client hout] at hclient
            cases hclient
          obtain ⟨next, after, hdeliver, hnext⟩ := @deliver_clean_of_fresh engine disk ts op hfresh
          have hclients' : ∀ other, other ∉ clients →
              Function.update left client rest other = [] := by
            intro other hout
            have hne : other ≠ client := by
              rintro rfl
              exact hout hmem
            rw [Function.update_of_ne hne]
            exact hclients other hout
          obtain ⟨order, later, horder, hstate⟩ :=
            ih hstream hclients' (hfed.next hclient hnext) after
              (if (engine.state.apply op).2 = .suppressed then applied else applied + 1)
          refine ⟨order, later, horder.trans ?_, ?_⟩
          · rw [List.cons_append]
            exact List.perm_middle.symm.trans
              ((perm_flatMap_update hnodup hmem hclient).symm.append_left delivered)
          · rw [feed, hdeliver]
            exact hstate
      | @again _ _ op _ ts hdelivered hstream =>
          have hcovered : ¬ (dedup KvStore).fresh engine.toCore (ts, op) :=
            UInt64.not_lt.mpr (hfed.covered op hdelivered)
          have hsame : Fed left delivered { engine with
              stats := { engine.stats with suppressed := engine.stats.suppressed + 1 } } :=
            ⟨hfed.state, hfed.covered, hfed.owned, hfed.ahead, hfed.ascending⟩
          rw [feed, deliver_of_not_fresh hcovered]
          exact ih hstream hclients hsame disk applied

/-- What a delivery carries belongs to the workload. -/
theorem counts_of_delivers {clients : List UInt32} {keys : Nat} {stream : List Record}
    (hstream : Delivers left delivered stream)
    (hleft : ∀ client, ∀ op ∈ left client, Counts clients keys op)
    (hdone : ∀ op ∈ delivered, Counts clients keys op) :
    ∀ record ∈ stream, Counts clients keys record.2 := by
  induction hstream with
  | done => exact fun _ hrecord => absurd hrecord List.not_mem_nil
  | @next left delivered rest op stream ts client hclient _ ih =>
      have hop := hleft client op (hclient ▸ List.mem_cons_self)
      intro record hrecord
      rcases List.mem_cons.mp hrecord with rfl | hlater
      · exact hop
      · refine ih (fun other later hlater => ?_) (fun other hother => ?_) record hlater
        · by_cases hother : other = client
          · rw [hother, Function.update_self] at hlater
            exact hleft client later (hclient ▸ List.mem_cons_of_mem _ hlater)
          · rw [Function.update_of_ne hother] at hlater
            exact hleft other later hlater
        · rcases List.mem_cons.mp hother with rfl | hold
          · exact hop
          · exact hdone other hold
  | again ts hdelivered _ ih =>
      intro record hrecord
      rcases List.mem_cons.mp hrecord with rfl | hlater
      · exact hdone _ hdelivered
      · exact ih hleft hdone record hlater

/-! ### What is counted -/

variable {clients : List UInt32} {ops keys : UInt64} {order later : List Op}

/-- The entries of a store that has taken a part of the workload. -/
theorem mem_entries_taken (horder : ∀ op ∈ order, Counts clients keys.toNat op) {name : String}
    {value : Int64} :
    (name, value) ∈ (taken order).entries ↔ ∃ k < keys.toNat, name = key k
      ∧ countOf (key k) order ≠ 0 ∧ value = Int64.ofNat (countOf (key k) order) := by
  have hincr : ∀ op ∈ order, IsIncr op := fun op hop => by
    obtain ⟨index, -, hkind⟩ := (horder op hop).kind
    exact ⟨_, hkind⟩
  rw [mem_entries]
  simp only [getElem?_taken hincr]
  constructor
  · rintro ⟨bytes, hget, hvalue⟩
    split at hget
    · cases hget
    · rename_i hsome
      obtain rfl := Option.some.inj hget
      rw [asInt_showI64] at hvalue
      obtain ⟨op, hop, hname⟩ := List.countP_pos_iff.mp (Nat.pos_of_ne_zero hsome)
      obtain ⟨index, hindex, hkind⟩ := (horder op hop).kind
      have hkey : name = key index := by rw [← of_decide_eq_true hname, Op.key, hkind]
      rw [hkey] at hsome hvalue
      exact ⟨index, hindex, hkey, hsome, (Option.some.inj hvalue).symm⟩
  · rintro ⟨k, -, rfl, hsome, rfl⟩
    exact ⟨_, if_neg hsome, asInt_showI64 _⟩

theorem countOf_part (hperm : (order ++ later).Perm
    (clients.flatMap fun client => clientOps client ops keys)) (k : Nat) :
    countOf (key k) order ≤ clients.length * perClient ops keys k := by
  rw [← countOf_flatMap, countOf, countOf, ← hperm.countP_eq, List.countP_append]
  exact Nat.le_add_right _ _

/-- A store that has taken the workload holds what is expected. -/
theorem entries_of_whole (hclients : clients ≠ []) (hkeys : keys ≤ ops)
    (horder : ∀ op ∈ order, Counts clients keys.toNat op)
    (hperm : order.Perm (clients.flatMap fun client => clientOps client ops keys)) :
    (taken order).entries = expectedState clients.length ops keys := by
  have htotal : ∀ k, countOf (key k) order = clients.length * perClient ops keys k := fun k => by
    rw [← countOf_flatMap]
    exact hperm.countP_eq _
  have hentries : ∀ entry, entry ∈ (taken order).entries ↔ entry ∈ sums clients.length ops keys := by
    rintro ⟨name, value⟩
    rw [mem_entries_taken horder, mem_sums]
    simp only [htotal]
    refine exists_congr fun k => and_congr_right fun hk => and_congr_right fun _ =>
      and_iff_right ?_
    exact Nat.mul_ne_zero (by simpa using hclients) (Nat.ne_of_gt (perClient_pos hkeys hk))
  have hsorted := pairwise_entries (taken order)
  have hdistinct : (taken order).entries.Nodup := by
    refine hsorted.imp ?_
    rintro entry other hlt rfl
    have hself := @Std.ReflCmp.compare_self _ compare _ entry.1
    rw [hself] at hlt
    cases hlt
  have hsame : (taken order).entries.Perm (sums clients.length ops keys) :=
    (List.perm_ext_iff_of_nodup hdistinct (nodup_sums _ _ _)).mpr hentries
  have htotalOrder : Std.Total pairLe := ⟨pairLe_total⟩
  have htrans : IsTrans (String × Int64) pairLe := ⟨fun _ _ _ => pairLe_trans⟩
  rw [expectedState_eq]
  exact (hsame.trans (List.perm_insertionSort pairLe _).symm).eq_of_pairwise
    (fun _ _ _ _ => pairLe_antisymm) (hsorted.imp pairLe_of_lt)
    (List.pairwise_insertionSort pairLe _)

theorem getElem?_expected {k : Nat} (hk : k < keys.toNat) (count : Nat) :
    (Std.ExtTreeMap.ofList (expectedState count ops keys) compare)[key k]?
      = some (Int64.ofNat (count * perClient ops keys k)) := by
  have hnames : ((expectedState count ops keys).map Prod.fst).Nodup := by
    have hperm : ((expectedState count ops keys).map Prod.fst).Perm
        ((List.range keys.toNat).map key) := by
      rw [expectedState_eq]
      refine ((List.perm_insertionSort pairLe _).map Prod.fst).trans ?_
      rw [sums, List.map_map]
      exact .refl _
    exact hperm.nodup_iff.mpr (List.nodup_range.map fun _ _ => key_inj)
  refine Std.ExtTreeMap.getElem?_ofList_of_mem Std.ReflCmp.compare_self ?_ ?_
  · refine (List.pairwise_map.mp hnames).imp fun hne heq => hne ?_
    exact Std.LawfulEqCmp.compare_eq_iff_eq.mp heq
  · rw [expectedState_eq, (List.perm_insertionSort pairLe _).mem_iff]
    exact mem_sums.mpr ⟨k, hk, rfl, rfl⟩

theorem ofNat_le_ofNat {first second : Nat} (hle : first ≤ second)
    (hsecond : second < 9223372036854775808) : Int64.ofNat first ≤ Int64.ofNat second := by
  rw [Int64.le_iff_toInt_le, Int64.toInt_ofNat_of_lt (by omega), Int64.toInt_ofNat_of_lt hsecond]
  exact Int.ofNat_le.mpr hle

/-! ### The report -/

theorem crashReport_recoveredOk (clients : Nat) (ops keys interval : UInt64)
    (survivor : Engine KvStore) (victim : Engine KvStore × Disk) :
    let report := crashReport clients ops keys interval survivor victim
    report.victimCaughtUp = report.survivorState → report.survivorState = report.expected →
      report.recoveredOk = true := by
  intro report hadopted hexact
  dsimp only [report, crashReport] at hadopted hexact ⊢
  rw [hadopted, hexact]
  exact decide_eq_true ⟨rfl, rfl⟩

/-- **The report on a crash is good.** Any clients, any interleaving of their ops with any
re-deliveries at the survivor and any other at the victim, up to a crash anywhere: the survivor ends
exact and its directory recovers to what it holds, the victim's directory recovers to the counters it
had, none of which is above the expected, and the exported state brings it to the survivor's. -/
theorem crashReport_good (hnodup : clients.Nodup) (hclients : clients ≠ [])
    (hfew : clients.length < 4294967296) (hkeys : 1 ≤ keys) (hops : keys ≤ ops)
    (hfits : keys ≤ 16777216) (hsum : clients.length * ops.toNat < 9223372036854775808)
    {survivor : List Record} (hsurvivor : Delivers (workload clients ops keys) [] survivor)
    {batches : List (List Record)} {rest : List Record}
    (hvictim : Delivers (workload clients ops keys) [] (batches.flatten ++ rest))
    (interval : UInt64) (crashAfter : Nat) :
    ∀ victim ∈ victimRun crashAfter (Engine.create interval) Disk.empty 0 batches,
      let fed := feed (Engine.create interval) Disk.empty 0 survivor
      let report := crashReport clients.length ops keys interval fed.1 victim
      report.survivorCorrect = true ∧ report.victimPrefixConsistent = true
        ∧ report.recoveredOk = true
        ∧ (Engine.recover victim.2 interval : Engine KvStore).state.entries
          = report.victimPrefix
        ∧ (Engine.recover fed.2.1 interval : Engine KvStore).toCore = fed.1.toCore := by
  intro victim hcrash fed report
  have houtside : ∀ client, client ∉ clients → workload clients ops keys client = [] :=
    fun client hout => if_neg hout
  have hall : clients.flatMap (workload clients ops keys)
      = clients.flatMap fun client => clientOps client ops keys :=
    List.flatMap_congr fun client hclient => if_pos hclient
  have hcounts : ∀ client, ∀ op ∈ workload clients ops keys client,
      Counts clients keys.toNat op := by
    intro client op hop
    rw [workload] at hop
    split at hop
    · exact counts_of_mem_clientOps hkeys ‹_› hop
    · cases hop
  have hworkload : ∀ op ∈ clients.flatMap fun client => clientOps client ops keys,
      Counts clients keys.toNat op := by
    intro op hop
    rw [← hall] at hop
    obtain ⟨client, -, hclient⟩ := List.mem_flatMap.mp hop
    exact hcounts client op hclient
  have hnone : ∀ op ∈ ([] : List Op), Counts clients keys.toNat op :=
    fun _ hop => absurd hop List.not_mem_nil
  have hlimit := UInt64.le_iff_toNat_le.mp hfits
  -- the survivor has the whole workload
  obtain ⟨whole, hwhole, hstate, -⟩ := feed_of_delivers hnodup hsurvivor houtside
    (fed_create clients ops keys interval) Disk.empty 0
  rw [hall, List.nil_append] at hwhole
  have hexact : (feed (Engine.create interval) Disk.empty 0 survivor).1.state.entries
      = expectedState clients.length ops keys := by
    rw [hstate]
    exact entries_of_whole hclients hops (fun op hop => hworkload op (hwhole.mem_iff.mp hop)) hwhole
  -- the victim has a part of it, in memory and on disk
  obtain ⟨front, back, hflatten, rfl⟩ := victimRun_eq_feed hcrash
  rw [hflatten, List.append_assoc] at hvictim
  obtain ⟨order, later, horder, hpart⟩ := feed_of_delivers_part hnodup hvictim houtside
    (fed_create clients ops keys interval) Disk.empty 0
  rw [hall, List.nil_append] at horder
  have hfront : StreamFits KvStore front := by
    refine streamFits_of_counts (fun record hrecord => ?_) hfew hlimit
    exact counts_of_delivers hvictim hcounts hnone record (List.mem_append_left _ hrecord)
  obtain ⟨-, -, -, hbooks⟩ := feed_create hfront interval
  -- what it adopts is the survivor's state
  have hlives : StreamFits KvStore survivor :=
    streamFits_of_counts (counts_of_delivers hsurvivor hcounts hnone) hfew hlimit
  obtain ⟨-, -, hcore, hlivesBooks⟩ := feed_create hlives interval
  have hencodable : Encodable (serial KvStore survivor).state :=
    encodable_serial fun record hrecord => (hlives.loggable record hrecord).1
  have hbounded : (serial KvStore survivor).Fits := by
    have hend := hlives.bounded survivor.length (Nat.le_refl _)
    rwa [List.take_length] at hend
  have hadopted : report.victimCaughtUp = report.survivorState := by
    change KvStore.entries (Core.state (Engine.toCore _)) = KvStore.entries _
    rw [importState_toCore, Engine.exportState, hcore, loadSnapshot_encodeSnapshot hencodable hbounded]
  refine ⟨decide_eq_true hexact, ?_, ?_, ?_, ?_⟩
  · refine List.all_eq_true.mpr fun entry hentry => ?_
    obtain ⟨name, value⟩ := entry
    rw [hpart, mem_entries_taken fun op hop =>
      hworkload op (horder.mem_iff.mp (List.mem_append_left _ hop))] at hentry
    obtain ⟨k, hk, rfl, -, rfl⟩ := hentry
    have hper : perClient ops keys k ≤ ops.toNat := by
      refine (List.length_filter_le _ _).trans ?_
      rw [List.length_range]
    have hbound := Nat.mul_le_mul_left clients.length hper
    rw [getElem?_expected hk, Option.any_some]
    exact decide_eq_true
      (ofNat_le_ofNat (countOf_part horder k) (Nat.lt_of_le_of_lt hbound hsum))
  · exact crashReport_recoveredOk _ _ _ _ _ _ hadopted hexact
  · change KvStore.entries (Core.state (Engine.toCore _)) = KvStore.entries _
    rw [recover_toCore, hbooks.live]
  · rw [recover_toCore, hlivesBooks.live]

/-- The victim dies with one increment of each client. -/
theorem crashReport_good_twoClients :
    let victim := victimRun 2 (Engine.create 2) Disk.empty 0
      [twoClients.take 1, (twoClients.drop 1).take 1]
    (∃ engine disk, victim = some (engine, disk) ∧ engine.state.entries = [("k0", 2)])
      ∧ ∀ left ∈ victim, (crashReport 2 2 2 2
        (feed (Engine.create 2) Disk.empty 0 twoClients).1 left).recoveredOk = true := by
  intro victim
  have hcrash : victim.isSome = true := by decide +kernel
  obtain ⟨⟨engine, disk⟩, hleft⟩ := Option.isSome_iff_exists.mp hcrash
  have hcounted : victim.map (fun left => left.1.state.entries) = some [("k0", 2)] := by
    decide +kernel
  rw [hleft] at hcounted
  have hwhole : Delivers (workload [7, 9] 2 2) []
      ([twoClients.take 1, (twoClients.drop 1).take 1].flatten ++ twoClients.drop 2) :=
    delivers_twoClients
  refine ⟨⟨engine, disk, hleft, Option.some.inj hcounted⟩, fun left hvictim => ?_⟩
  exact (crashReport_good (by decide) (by decide) (by decide) (by decide) (by decide) (by decide)
    (by decide) delivers_twoClients hwhole 2 2 left
    hvictim).2.2.1

end OneBarrier.Oracle
