import OneBarrier.Oracle
import OneBarrier.Proof.Coherence
import OneBarrier.Lib.Decimal

/-!
# The oracle is exact

Whatever the order the ops of the clients are delivered in, and whatever is delivered again, the
engine takes every op once. The ops it takes are increments, so the store counts, key by key, how
many there were: the same number for every order.
-/

namespace OneBarrier

open Wire Utf8 Text Durable

/-- A delivery with no fault returns the op's output and takes the op, or suppresses it. -/
theorem deliver_clean_of_fresh {engine : Engine KvStore} {disk : Disk} {ts : UInt64} {op : Op}
    (hfresh : engine.highWater op.client < op.seq) : ∃ next after,
      engine.deliver Faults.clean disk ts op = (.ok (engine.state.apply op).2, next, after)
        ∧ next.toCore = (dedup KvStore).apply engine.toCore (ts, op) := by
  have hmachine : (dedup KvStore).fresh engine.toCore (ts, op) := hfresh
  have hcore := deliver_toCore engine disk Faults.clean ts op
  rw [Journal.Machine.deliver_of_fresh hmachine] at hcore
  have hok : (engine.deliver Faults.clean disk ts op).1 = .ok (engine.state.apply op).2 := by
    rw [deliver_of_fresh hmachine]
    dsimp only [Faults.clean, append, Engine.snapshotIfDue]
    split <;> rfl
  exact ⟨_, _, Prod.ext hok rfl, hcore⟩

namespace Oracle

/-- An increment by one. -/
def IsIncr (op : Op) : Prop := ∃ name, op.kind = .incr name 1

/-- The store after these ops, the last one first. -/
def taken (ops : List Op) : KvStore := ops.foldr (fun op store => (store.apply op).1) ⟨∅⟩

/-- What the engine has and what is left fit together. -/
structure Fed (left : UInt32 → List Op) (delivered : List Op) (engine : Engine KvStore) : Prop where
  state : engine.state = taken delivered
  covered : ∀ op ∈ delivered, op.seq ≤ engine.highWater op.client
  owned : ∀ client, ∀ op ∈ left client, op.client = client
  ahead : ∀ client, ∀ op ∈ left client, engine.highWater client < op.seq
  ascending : ∀ client, (left client).Pairwise fun first second => first.seq < second.seq

variable {left : UInt32 → List Op} {delivered : List Op} {engine : Engine KvStore}

/-- The next op of a client is new to the engine. -/
theorem Fed.next (hfed : Fed left delivered engine) {client : UInt32} {op : Op} {rest : List Op}
    (hclient : left client = op :: rest) {ts : UInt64} {next : Engine KvStore}
    (hnext : next.toCore = (dedup KvStore).apply engine.toCore (ts, op)) :
    Fed (Function.update left client rest) (op :: delivered) next := by
  have hop : op ∈ left client := hclient ▸ List.mem_cons_self
  have howner := hfed.owned client op hop
  have hfresh : engine.highWater op.client < op.seq := by
    rw [howner]
    exact hfed.ahead client op hop
  have hmark : ∀ other, next.highWater other
      = if op.client = other then op.seq else engine.highWater other := by
    intro other
    rw [hnext]
    exact Core.highWater_applyDedup other hfresh
  have hascending := hfed.ascending client
  rw [hclient] at hascending
  obtain ⟨hfirst, hrest⟩ := List.pairwise_cons.mp hascending
  refine ⟨?_, ?_, ?_, ?_, ?_⟩
  · have hmachine : (dedup KvStore).fresh engine.toCore (ts, op) := hfresh
    rw [hnext, state_apply hmachine, hfed.state]
    rfl
  · intro other hother
    rw [hmark]
    rcases List.mem_cons.mp hother with rfl | hold
    · rw [if_pos rfl]
      exact UInt64.le_refl _
    · have hle := hfed.covered other hold
      split
      · rename_i hsame
        rw [← hsame] at hle
        exact UInt64.le_trans hle (UInt64.le_of_lt hfresh)
      · exact hle
  · intro other later hlater
    by_cases hother : other = client
    · rw [hother, Function.update_self] at hlater
      rw [hother]
      exact hfed.owned client later (hclient ▸ List.mem_cons_of_mem _ hlater)
    · rw [Function.update_of_ne hother] at hlater
      exact hfed.owned other later hlater
  · intro other later hlater
    rw [hmark]
    by_cases hother : other = client
    · rw [hother, Function.update_self] at hlater
      rw [hother, if_pos howner]
      exact hfirst later hlater
    · rw [Function.update_of_ne hother] at hlater
      rw [if_neg (by rw [howner]; exact Ne.symm hother)]
      exact hfed.ahead other later hlater
  · intro other
    by_cases hother : other = client
    · rw [hother, Function.update_self]
      exact hrest
    · rw [Function.update_of_ne hother]
      exact hfed.ascending other

/-- What is left of a list of clients, one op less. -/
theorem perm_flatMap_update {clients : List UInt32} (hnodup : clients.Nodup) {client : UInt32}
    (hmem : client ∈ clients) {op : Op} {rest : List Op} (hclient : left client = op :: rest) :
    (clients.flatMap left).Perm (op :: clients.flatMap (Function.update left client rest)) := by
  induction clients with
  | nil => cases hmem
  | cons head clients ih =>
      obtain ⟨hhead, htail⟩ := List.nodup_cons.mp hnodup
      rw [List.flatMap_cons, List.flatMap_cons]
      by_cases hsame : head = client
      · subst hsame
        have hkeep : clients.flatMap (Function.update left head rest) = clients.flatMap left := by
          refine List.flatMap_congr fun other hother => ?_
          have hne : other ≠ head := by
            rintro rfl
            exact hhead hother
          exact Function.update_of_ne hne ..
        rw [hclient, Function.update_self, hkeep, List.cons_append]
      · have htailMem : client ∈ clients := (List.mem_cons.mp hmem).resolve_left (Ne.symm hsame)
        rw [Function.update_of_ne hsame]
        exact ((ih htail htailMem).append_left _).trans List.perm_middle

/-- **The run lemma**: all that was left has been taken, each op once, in some order. -/
theorem feed_of_delivers {clients : List UInt32} (hnodup : clients.Nodup) {stream : List Record}
    (hstream : Delivers left delivered stream) (hclients : ∀ client, client ∉ clients →
      left client = []) (hfed : Fed left delivered engine) (disk : Disk) (applied : Nat) :
    ∃ order : List Op, order.Perm (delivered ++ clients.flatMap left)
      ∧ (feed engine disk applied stream).1.state = taken order
      ∧ (feed engine disk applied stream).2.2 = applied + (clients.flatMap left).length := by
  induction hstream generalizing engine disk applied with
  | @done left delivered hleft =>
      have hnone : clients.flatMap left = [] := by
        rw [List.flatMap_eq_nil_iff]
        exact fun client _ => hleft client
      refine ⟨delivered, ?_, hfed.state, ?_⟩
      · rw [hnone, List.append_nil]
      · rw [hnone]
        rfl
  | @next left delivered rest op stream ts client hclient hstream ih =>
      have hop : op ∈ left client := hclient ▸ List.mem_cons_self
      have hfresh : engine.highWater op.client < op.seq := by
        rw [hfed.owned client op hop]
        exact hfed.ahead client op hop
      have hmem : client ∈ clients := by
        by_contra hout
        rw [hclients client hout] at hclient
        cases hclient
      have hperm := perm_flatMap_update hnodup hmem hclient
      obtain ⟨next, after, hdeliver, hnext⟩ := @deliver_clean_of_fresh engine disk ts op hfresh
      have hclients' : ∀ other, other ∉ clients → Function.update left client rest other = [] := by
        intro other hout
        have hne : other ≠ client := by
          rintro rfl
          exact hout hmem
        rw [Function.update_of_ne hne]
        exact hclients other hout
      obtain ⟨order, horder, hstate, hcount⟩ :=
        ih hclients' (hfed.next hclient hnext) after (applied + 1)
      have hfeed : feed engine disk applied ((ts, op) :: stream)
          = feed next after (applied + 1) stream := by
        rw [feed, hdeliver]
        have hout : (engine.state.apply op).2 ≠ .suppressed :=
          LawfulStateMachine.apply_ne_suppressed engine.state op
        dsimp only
        rw [if_neg hout]
      rw [hfeed]
      refine ⟨order, ?_, hstate, ?_⟩
      · refine horder.trans ?_
        rw [List.cons_append]
        exact List.perm_middle.symm.trans (hperm.symm.append_left delivered)
      · rw [hcount, hperm.length_eq, List.length_cons]
        omega
  | @again left delivered op stream ts hdelivered hstream ih =>
      have hcovered : ¬ (dedup KvStore).fresh engine.toCore (ts, op) :=
        UInt64.not_lt.mpr (hfed.covered op hdelivered)
      have hsame : Fed left delivered { engine with
          stats := { engine.stats with suppressed := engine.stats.suppressed + 1 } } :=
        ⟨hfed.state, hfed.covered, hfed.owned, hfed.ahead, hfed.ascending⟩
      have hfeed : feed engine disk applied ((ts, op) :: stream) = feed { engine with
          stats := { engine.stats with suppressed := engine.stats.suppressed + 1 } } disk applied
          stream := by
        rw [feed, deliver_of_not_fresh hcovered]
        rfl
      rw [hfeed]
      exact ih hclients hsame disk applied

/-! ### Counting -/

theorem asInt_showI64 (value : Int64) : KvStore.asInt (asBytes (showI64 value)) = some value := by
  rw [KvStore.asInt, fromUtf8_asBytes, Option.bind_some, trim_showI64, parseI64_showI64]

/-- How many of the ops are for a key. -/
def countOf (name : String) (ops : List Op) : Nat := ops.countP fun op => op.key = name

/-- A store of increments counts them. -/
theorem getElem?_taken {ops : List Op} (hincr : ∀ op ∈ ops, IsIncr op) (name : String) :
    (taken ops).map[name]? = if countOf name ops = 0 then none
      else some (asBytes (showI64 (Int64.ofNat (countOf name ops)))) := by
  induction ops with
  | nil =>
      have hnone : countOf name [] = 0 := rfl
      rw [if_pos hnone]
      exact Std.ExtTreeMap.getElem?_empty
  | cons op ops ih =>
      have hrest := ih fun other hother => hincr other (List.mem_cons_of_mem _ hother)
      obtain ⟨key, hkind⟩ := hincr op List.mem_cons_self
      have hkey : op.key = key := by rw [Op.key, hkind]
      have hvalue : ((taken ops).getInt name).getD 0 = Int64.ofNat (countOf name ops) := by
        rw [KvStore.getInt, hrest]
        split
        · rename_i hzero
          rw [hzero]
          rfl
        · rw [Option.bind_some, asInt_showI64, Option.getD_some]
      have hstep : (taken (op :: ops)).map = (taken ops).map.insert key
          (asBytes (showI64 (((taken ops).getInt key).getD 0 + 1))) := by
        rw [taken, List.foldr_cons, KvStore.apply, hkind]
        rfl
      rw [hstep, Std.ExtTreeMap.getElem?_insert, countOf, List.countP_cons, hkey]
      by_cases hname : key = name
      · subst hname
        have hsum : Int64.ofNat (countOf key ops) + 1 = Int64.ofNat (countOf key ops + 1) := by
          rw [Int64.ofNat_add]
          rfl
        rw [if_pos Std.ReflCmp.compare_self, hvalue, hsum]
        simp [countOf]
      · have hcmp : compare key name ≠ .eq := fun heq =>
          hname (Std.LawfulEqCmp.compare_eq_iff_eq.mp heq)
        rw [if_neg hcmp, hrest]
        simp [countOf, hname]

theorem mem_entries {store : KvStore} {name : String} {value : Int64} :
    (name, value) ∈ store.entries ↔ ∃ bytes, store.map[name]? = some bytes
      ∧ KvStore.asInt bytes = some value := by
  rw [KvStore.entries, List.mem_filterMap]
  constructor
  · rintro ⟨⟨key, bytes⟩, hmem, hentry⟩
    obtain ⟨found, hfound, hpair⟩ := Option.map_eq_some_iff.mp hentry
    obtain ⟨rfl, rfl⟩ := Prod.mk.inj hpair
    exact ⟨bytes, Std.ExtTreeMap.mem_toList_iff_getElem?_eq_some.mp hmem, hfound⟩
  · rintro ⟨bytes, hget, hvalue⟩
    refine ⟨(name, bytes), Std.ExtTreeMap.mem_toList_iff_getElem?_eq_some.mpr hget, ?_⟩
    rw [hvalue, Option.map_some]

/-- The entries are in strict key order. -/
theorem pairwise_entries (store : KvStore) :
    store.entries.Pairwise fun first second => compare first.1 second.1 = .lt := by
  rw [KvStore.entries, List.pairwise_filterMap]
  refine Std.ExtTreeMap.ordered_keys_toList.imp fun {first second} hlt entry hentry other hother => ?_
  obtain ⟨value, -, rfl⟩ := Option.map_eq_some_iff.mp hentry
  obtain ⟨value', -, rfl⟩ := Option.map_eq_some_iff.mp hother
  exact hlt

/-! ### The expected state -/

theorem key_inj {first second : Nat} (hkey : key first = key second) : first = second := by
  have hlist := congrArg String.toList hkey
  rw [key, key, String.toList_append, String.toList_append, toList_toString_nat,
    toList_toString_nat] at hlist
  have hdigits := List.append_cancel_left hlist
  have hparse := parseDigits_toDigits first
  rw [hdigits, parseDigits_toDigits] at hparse
  exact (Option.some.inj hparse).symm

/-- How many ops a client has for a key. -/
def perClient (ops keys : UInt64) (k : Nat) : Nat :=
  ((List.range ops.toNat).filter (· % keys.toNat = k)).length

theorem countOf_clientOps (client : UInt32) (ops keys : UInt64) (k : Nat) :
    countOf (key k) (clientOps client ops keys) = perClient ops keys k := by
  rw [countOf, clientOps, List.countP_map, List.countP_eq_length_filter, perClient]
  refine congrArg List.length (List.filter_congr fun i _ => ?_)
  exact decide_eq_decide.mpr ⟨key_inj, congrArg key⟩

theorem countOf_flatMap (clients : List UInt32) (ops keys : UInt64) (k : Nat) :
    countOf (key k) (clients.flatMap fun client => clientOps client ops keys)
      = clients.length * perClient ops keys k := by
  induction clients with
  | nil => simp [countOf]
  | cons client clients ih =>
      have hhead := countOf_clientOps client ops keys k
      rw [countOf] at hhead ih ⊢
      rw [List.flatMap_cons, List.countP_append, hhead, ih, List.length_cons, Nat.succ_mul,
        Nat.add_comm]

theorem perClient_pos {ops keys : UInt64} (hkeys : keys ≤ ops) {k : Nat} (hk : k < keys.toNat) :
    0 < perClient ops keys k := by
  have hle := UInt64.le_iff_toNat_le.mp hkeys
  refine List.length_pos_of_mem (List.mem_filter.mpr ⟨List.mem_range.mpr (by omega), ?_⟩ : k ∈ _)
  simpa using Nat.mod_eq_of_lt hk

theorem foldl_add_const (clients : Nat) (value : Int64) (count : Nat)
    (hvalue : value = Int64.ofNat count) :
    (List.range clients).foldl (fun sum _ => sum + value) 0 = Int64.ofNat (clients * count) := by
  induction clients with
  | zero =>
      rw [Nat.zero_mul]
      rfl
  | succ clients ih =>
      rw [List.range_succ, List.foldl_append, ih, List.foldl_cons, List.foldl_nil, hvalue,
        Nat.succ_mul, Int64.ofNat_add]

theorem pairLe_trans {first second third : String × Int64} (hfirst : pairLe first second)
    (hsecond : pairLe second third) : pairLe first third :=
  Std.TransCmp.isLE_trans hfirst hsecond

theorem pairLe_total (first second : String × Int64) : pairLe first second ∨ pairLe second first := by
  have hswap := @Std.OrientedCmp.eq_swap (String × Int64)
    (compareLex (compareOn Prod.fst) (compareOn Prod.snd)) _ second first
  rw [pairLe, pairLe, hswap]
  cases compareLex (compareOn Prod.fst) (compareOn Prod.snd) first second <;> decide

theorem pairLe_antisymm {first second : String × Int64} (hfirst : pairLe first second)
    (hsecond : pairLe second first) : first = second := by
  have heq := Std.OrientedCmp.isLE_antisymm hfirst hsecond
  rw [compareLex_eq_eq] at heq
  exact Prod.ext (Std.LawfulEqCmp.compare_eq_iff_eq.mp heq.1)
    (Std.LawfulEqCmp.compare_eq_iff_eq.mp heq.2)

theorem pairLe_of_lt {first second : String × Int64} (hlt : compare first.1 second.1 = .lt) :
    pairLe first second := by
  have hfirst : compareOn Prod.fst first second = .lt := hlt
  rw [pairLe, compareLex, hfirst]
  rfl

/-- The sums before they are sorted. -/
def sums (clients : Nat) (ops keys : UInt64) : List (String × Int64) :=
  (List.range keys.toNat).map fun k => (key k, Int64.ofNat (clients * perClient ops keys k))

theorem expectedState_eq (clients : Nat) (ops keys : UInt64) :
    expectedState clients ops keys = (sums clients ops keys).insertionSort pairLe := by
  rw [expectedState, sums]
  congr 1
  refine List.map_congr_left fun k _ => ?_
  exact congrArg (Prod.mk (key k)) (foldl_add_const clients _ (perClient ops keys k) rfl)

theorem mem_sums {clients : Nat} {ops keys : UInt64} {name : String} {value : Int64} :
    (name, value) ∈ sums clients ops keys ↔ ∃ k < keys.toNat, name = key k
      ∧ value = Int64.ofNat (clients * perClient ops keys k) := by
  simp only [sums, List.mem_map, List.mem_range, Prod.mk.injEq]
  constructor
  · rintro ⟨k, hk, rfl, rfl⟩
    exact ⟨k, hk, rfl, rfl⟩
  · rintro ⟨k, hk, rfl, rfl⟩
    exact ⟨k, hk, rfl, rfl⟩

theorem nodup_sums (clients : Nat) (ops keys : UInt64) : (sums clients ops keys).Nodup := by
  refine List.nodup_range.map fun first second hsame => ?_
  exact key_inj (congrArg Prod.fst hsame)

theorem toNat_seq {ops : UInt64} {i : Nat} (hi : i < ops.toNat) :
    (UInt64.ofNat i + 1).toNat = i + 1 := by
  have hops := ops.toNat_lt
  have hone : (1 : UInt64).toNat = 1 := rfl
  rw [UInt64.toNat_add, UInt64.toNat_ofNat', hone, Nat.mod_eq_of_lt (by omega : i < 2 ^ 64),
    Nat.mod_eq_of_lt (by omega)]

theorem mem_clientOps {client : UInt32} {ops keys : UInt64} {op : Op} :
    op ∈ clientOps client ops keys ↔ ∃ i < ops.toNat,
      op = { client, seq := UInt64.ofNat i + 1, kind := .incr (key (i % keys.toNat)) 1 } := by
  simp only [clientOps, List.mem_map, List.mem_range, eq_comm]

theorem fed_create (clients : List UInt32) (ops keys interval : UInt64) :
    Fed (workload clients ops keys) [] (Engine.create interval) := by
  have hmem : ∀ client, ∀ op ∈ workload clients ops keys client,
      op ∈ clientOps client ops keys := by
    intro client op hop
    rw [workload] at hop
    split at hop
    · exact hop
    · cases hop
  refine ⟨rfl, by simp, ?_, ?_, ?_⟩
  · intro client op hop
    obtain ⟨i, -, rfl⟩ := mem_clientOps.mp (hmem client op hop)
    rfl
  · intro client op hop
    obtain ⟨i, hi, rfl⟩ := mem_clientOps.mp (hmem client op hop)
    have hzero : (Engine.create interval : Engine KvStore).highWater client = 0 := rfl
    rw [hzero, UInt64.lt_iff_toNat_lt, toNat_seq hi]
    exact Nat.succ_pos i
  · intro client
    rw [workload]
    split
    · rw [clientOps, List.pairwise_map]
      refine List.pairwise_lt_range.imp_of_mem fun {first second} hfirst hsecond hlt => ?_
      dsimp only
      rw [UInt64.lt_iff_toNat_lt, toNat_seq (List.mem_range.mp hfirst),
        toNat_seq (List.mem_range.mp hsecond)]
      omega
    · exact List.Pairwise.nil

/-- **The oracle is exact.** Any clients, any interleaving of their ops with any re-deliveries, any
snapshot interval and any timestamps. -/
theorem entries_eq_expectedState {clients : List UInt32} (hnodup : clients.Nodup)
    (hclients : clients ≠ []) {ops keys : UInt64} (hkeys : 1 ≤ keys) (hops : keys ≤ ops)
    {stream : List Record} (hstream : Delivers (workload clients ops keys) [] stream)
    (interval : UInt64) (disk : Disk) :
    let result := feed (Engine.create interval) disk 0 stream
    result.1.state.entries = expectedState clients.length ops keys
      ∧ result.2.2 = clients.length * ops.toNat := by
  intro result
  have houtside : ∀ client, client ∉ clients → workload clients ops keys client = [] :=
    fun client hout => if_neg hout
  have hall : clients.flatMap (workload clients ops keys)
      = clients.flatMap fun client => clientOps client ops keys :=
    List.flatMap_congr fun client hclient => if_pos hclient
  obtain ⟨order, hperm, hstate, hcount⟩ := feed_of_delivers hnodup hstream houtside
    (fed_create clients ops keys interval) disk 0
  rw [hall] at hperm hcount
  rw [List.nil_append] at hperm
  have hmem : ∀ op ∈ order, ∃ i, op.kind = .incr (key (i % keys.toNat)) 1 := by
    intro op hop
    obtain ⟨client, -, hclient⟩ := List.mem_flatMap.mp (hperm.mem_iff.mp hop)
    obtain ⟨i, -, rfl⟩ := mem_clientOps.mp hclient
    exact ⟨i, rfl⟩
  have hincr : ∀ op ∈ order, IsIncr op := fun op hop =>
    (hmem op hop).elim fun i hkind => ⟨_, hkind⟩
  have htotal : ∀ k, countOf (key k) order = clients.length * perClient ops keys k := by
    intro k
    rw [← countOf_flatMap]
    exact hperm.countP_eq _
  have hpositive : 0 < keys.toNat := UInt64.le_iff_toNat_le.mp hkeys
  have hentries : ∀ name value, (name, value) ∈ result.1.state.entries
      ↔ (name, value) ∈ sums clients.length ops keys := by
    intro name value
    rw [mem_entries, mem_sums, hstate]
    simp only [getElem?_taken hincr]
    constructor
    · rintro ⟨bytes, hget, hvalue⟩
      split at hget
      · cases hget
      · rename_i hsome
        obtain rfl := Option.some.inj hget
        rw [asInt_showI64] at hvalue
        obtain ⟨op, hop, hname⟩ := List.countP_pos_iff.mp (Nat.pos_of_ne_zero hsome)
        obtain ⟨i, hkind⟩ := hmem op hop
        have hkey : name = key (i % keys.toNat) := by
          rw [← of_decide_eq_true hname, Op.key, hkind]
        refine ⟨i % keys.toNat, Nat.mod_lt _ hpositive, hkey, ?_⟩
        rw [← htotal, ← hkey]
        exact (Option.some.inj hvalue).symm
    · rintro ⟨k, hk, rfl, rfl⟩
      have hsome : countOf (key k) order ≠ 0 := by
        rw [htotal]
        exact Nat.mul_ne_zero (by simpa using hclients) (Nat.ne_of_gt (perClient_pos hops hk))
      refine ⟨_, if_neg hsome, ?_⟩
      rw [asInt_showI64, htotal]
  refine ⟨?_, ?_⟩
  · have htotalOrder : Std.Total pairLe := ⟨pairLe_total⟩
    have htrans : IsTrans (String × Int64) pairLe := ⟨fun _ _ _ => pairLe_trans⟩
    have hsorted := pairwise_entries result.1.state
    have hdistinct : result.1.state.entries.Nodup := by
      refine hsorted.imp ?_
      rintro entry other hlt rfl
      have hself := @Std.ReflCmp.compare_self _ compare _ entry.1
      rw [hself] at hlt
      cases hlt
    have hsame : result.1.state.entries.Perm (sums clients.length ops keys) :=
      (List.perm_ext_iff_of_nodup hdistinct (nodup_sums _ _ _)).mpr fun entry =>
        hentries entry.1 entry.2
    rw [expectedState_eq]
    exact (hsame.trans (List.perm_insertionSort pairLe _).symm).eq_of_pairwise
      (fun _ _ _ _ => pairLe_antisymm) (hsorted.imp pairLe_of_lt)
      (List.pairwise_insertionSort pairLe _)
  · rw [hcount, Nat.zero_add, List.length_flatMap]
    simp only [clientOps, List.length_map, List.length_range, List.map_const',
      List.sum_replicate_nat]

/-- Two clients with two ops each on two keys; the first op of one comes again. -/
def twoClients : List Record :=
  [(1, ⟨7, 1, .incr "k0" 1⟩), (2, ⟨9, 1, .incr "k0" 1⟩), (3, ⟨7, 1, .incr "k0" 1⟩),
    (4, ⟨9, 2, .incr "k1" 1⟩), (5, ⟨7, 2, .incr "k1" 1⟩)]

theorem delivers_twoClients : Delivers (workload [7, 9] 2 2) [] twoClients := by
  refine @Delivers.next _ _ [⟨7, 2, .incr "k1" 1⟩] _ _ 1 7 (by decide +kernel) ?_
  refine @Delivers.next _ _ [⟨9, 2, .incr "k1" 1⟩] _ _ 2 9 (by decide +kernel) ?_
  refine .again 3 (by decide +kernel) ?_
  refine @Delivers.next _ _ [] _ _ 4 9 (by decide +kernel) ?_
  refine @Delivers.next _ _ [] _ _ 5 7 (by decide +kernel) (.done fun client => ?_)
  by_cases hseven : client = 7
  · rw [hseven, Function.update_self]
  · rw [Function.update_of_ne hseven]
    by_cases hnine : client = 9
    · rw [hnine, Function.update_self]
    · simp [Function.update_of_ne, hseven, hnine, workload]

theorem entries_eq_expectedState_twoClients :
    let result := feed (Engine.create 2) Disk.empty 0 twoClients
    result.1.state.entries = [("k0", 2), ("k1", 2)]
      ∧ result.1.state.entries = expectedState 2 2 2 ∧ result.2.2 = 2 * 2 :=
  ⟨by decide +kernel, entries_eq_expectedState (by decide) (by decide) (by decide) (by decide)
    delivers_twoClients 2 Disk.empty⟩

end Oracle

end OneBarrier
