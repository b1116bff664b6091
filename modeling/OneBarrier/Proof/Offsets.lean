import OneBarrier.Proof.Crashes
import OneBarrier.Proof.Silent
import OneBarrier.Lib.Decimal

/-!
# Offsets of the streaming log

A topic's counter is the number of increments it has had, so an increment's output is its place among
those of its topic, and no two of them agree. The op that stores a message comes behind the increment
its offset is from, in the same request, and a request is never executed twice: under one key of one
topic there is one message, for good.
-/

namespace OneBarrier.StreamLog

open Wire Utf8 Text

/-! ### The keys of a topic -/

theorem append_separator_inj {α : Type} {separator : α} {front front' back back' : List α}
    (hback : separator ∉ back) (hback' : separator ∉ back')
    (hsame : front ++ separator :: back = front' ++ separator :: back') :
    front = front' ∧ back = back' := by
  have hempty : ∀ {more last last' : List α}, separator ∉ last →
      separator :: last = more ++ separator :: last' → more = [] ∧ last = last' := by
    intro more last last' hlast hsplit
    cases more with
    | nil => exact ⟨rfl, (List.cons.inj hsplit).2⟩
    | cons first more =>
        obtain rfl := (List.cons.inj hsplit).2
        exact absurd (List.mem_append_right _ List.mem_cons_self) hlast
  rcases List.append_eq_append_iff.mp hsame with ⟨more, rfl, hmore⟩ | ⟨more, rfl, hmore⟩
  · obtain ⟨rfl, rfl⟩ := hempty hback hmore
    exact ⟨(List.append_nil front).symm, rfl⟩
  · obtain ⟨rfl, rfl⟩ := hempty hback' hmore
    exact ⟨List.append_nil front', rfl⟩

theorem toList_counterKey (topic : List Char) :
    (counterKey topic).toList = ['t', ':'] ++ (topic ++ ':' :: ['n']) := by
  rw [counterKey, String.toList_append, String.toList_append, @String.toList_ofList topic,
    List.append_assoc]
  rfl

theorem toList_messageKey (topic : List Char) (offset : Int64) :
    (messageKey topic offset).toList = ['t', ':'] ++ (topic ++ ':' :: (showI64 offset).toList) := by
  rw [messageKey, String.toList_append, String.toList_append, String.toList_append,
    @String.toList_ofList topic, List.append_assoc, List.append_assoc]
  rfl

theorem colon_notMem_showI64 (offset : Int64) : ':' ∉ (showI64 offset).toList := by
  intro hmem
  rcases mem_showI64 hmem with hdigit | hminus
  · exact absurd hdigit (by decide)
  · exact absurd hminus (by decide)

theorem showI64_inj {first second : Int64} (hshow : showI64 first = showI64 second) :
    first = second := by
  have hparse := parseI64_showI64 first
  rw [hshow, parseI64_showI64] at hparse
  exact (Option.some.inj hparse).symm

theorem counterKey_inj {topic other : List Char} (hkey : counterKey topic = counterKey other) :
    topic = other := by
  have hlist := congrArg String.toList hkey
  rw [toList_counterKey, toList_counterKey] at hlist
  exact (append_separator_inj (by decide) (by decide) (List.append_cancel_left hlist)).1

theorem messageKey_inj {topic other : List Char} {offset place : Int64}
    (hkey : messageKey topic offset = messageKey other place) : topic = other ∧ offset = place := by
  have hlist := congrArg String.toList hkey
  rw [toList_messageKey, toList_messageKey] at hlist
  obtain ⟨htopic, hoffset⟩ := append_separator_inj (colon_notMem_showI64 offset)
    (colon_notMem_showI64 place) (List.append_cancel_left hlist)
  exact ⟨htopic, showI64_inj (String.toList_inj.mp hoffset)⟩

theorem counterKey_ne_messageKey (topic other : List Char) (offset : Int64) :
    counterKey topic ≠ messageKey other offset := by
  intro hkey
  have hlist := congrArg String.toList hkey
  rw [toList_counterKey, toList_messageKey] at hlist
  have hback := (append_separator_inj (by decide) (colon_notMem_showI64 offset)
    (List.append_cancel_left hlist)).2
  have hmem : 'n' ∈ (showI64 offset).toList := by
    rw [← hback]
    exact List.mem_cons_self
  rcases mem_showI64 hmem with hdigit | hminus
  · exact absurd hdigit (by decide)
  · exact absurd hminus (by decide)

/-! ### What the front-end writes -/

/-- An op of this front-end. -/
inductive Issues (op : Op) : Prop
  | reads (hread : op.isWrite = false)
  | takes (topic : List Char) (hkind : op.kind = .incr (counterKey topic) 1)
  | stores (topic : List Char) (offset : Int64) (message : Bytes)
      (hkind : op.kind = .set (messageKey topic offset) message)

/-- How many offsets of a topic these ops take. -/
def taken (topic : List Char) (ops : List Op) : Nat :=
  ops.countP fun op => op.kind = .incr (counterKey topic) 1

/-- The store after these ops. -/
def after (ops : List Op) : KvStore :=
  ops.foldl (fun store op => (store.apply op).1) StateMachine.default

theorem after_concat (ops : List Op) (op : Op) : after (ops ++ [op]) = ((after ops).apply op).1 := by
  rw [after, List.foldl_append]
  rfl

theorem taken_concat (topic : List Char) (ops : List Op) (op : Op) :
    taken topic (ops ++ [op])
      = taken topic ops + if op.kind = .incr (counterKey topic) 1 then 1 else 0 := by
  rw [taken, List.countP_append, List.countP_singleton]
  simp only [decide_eq_true_eq]
  rfl

/-- An op that does not write a key leaves it as it is. -/
theorem getElem?_apply {op : Op} (hissues : Issues op) {key : String}
    (htakes : ∀ topic, op.kind = .incr (counterKey topic) 1 → counterKey topic ≠ key)
    (hstores : ∀ topic offset message, op.kind = .set (messageKey topic offset) message →
      messageKey topic offset ≠ key) (store : KvStore) :
    (store.apply op).1.map[key]? = store.map[key]? := by
  have hinsert : ∀ {name : String} (value : Bytes), name ≠ key →
      (store.map.insert name value)[key]? = store.map[key]? := by
    intro name value hne
    rw [Std.ExtTreeMap.getElem?_insert, if_neg]
    exact fun heq => hne (Std.LawfulEqCmp.compare_eq_iff_eq.mp heq)
  cases hissues with
  | reads hread =>
      obtain ⟨client, seq, kind⟩ := op
      cases kind with
      | get name => rfl
      | set name value => cases hread
      | incr name delta => cases hread
      | del name => cases hread
      | txn writes => cases hread
  | takes topic hkind =>
      rw [KvStore.apply, hkind]
      exact hinsert _ (htakes topic hkind)
  | stores topic offset message hkind =>
      rw [KvStore.apply, hkind]
      exact hinsert _ (hstores topic offset message hkind)

theorem getInt_of_count {store : KvStore} {key : String} {count : Nat}
    (hget : store.map[key]? = if count = 0 then none
      else some (asBytes (showI64 (Int64.ofNat count)))) :
    (store.getInt key).getD 0 = Int64.ofNat count := by
  rw [KvStore.getInt, hget]
  split
  · rename_i hzero
    rw [hzero]
    rfl
  · rw [Option.bind_some, KvStore.asInt, fromUtf8_asBytes, Option.bind_some, trim_showI64,
      parseI64_showI64, Option.getD_some]

theorem ofNat_succ (count : Nat) : Int64.ofNat count + 1 = Int64.ofNat (count + 1) := by
  rw [Int64.ofNat_add]
  rfl

variable {ops : List Op}

/-- **A topic's counter counts.** -/
theorem getElem?_counterKey (hissues : ∀ op ∈ ops, Issues op) (topic : List Char) :
    (after ops).map[counterKey topic]? = if taken topic ops = 0 then none
      else some (asBytes (showI64 (Int64.ofNat (taken topic ops)))) := by
  induction ops using List.reverseRecOn with
  | nil => exact Std.ExtTreeMap.getElem?_empty
  | append_singleton ops op ih =>
      have hrest := ih fun other hother => hissues other (List.mem_append_left _ hother)
      have hop := hissues op (List.mem_append_right _ (List.mem_singleton_self op))
      rw [after_concat, taken_concat]
      by_cases hkind : op.kind = .incr (counterKey topic) 1
      · rw [KvStore.apply, hkind]
        dsimp only
        rw [Std.ExtTreeMap.getElem?_insert_self, getInt_of_count hrest, ofNat_succ, if_pos rfl,
          if_neg (Nat.succ_ne_zero _)]
      · rw [if_neg hkind, Nat.add_zero, ← hrest]
        refine getElem?_apply hop (fun other hother hkey => ?_) ?_ _
        · rw [counterKey_inj hkey] at hother
          exact hkind hother
        · exact fun other offset message _ hkey => counterKey_ne_messageKey _ _ _ hkey.symm

/-- An increment answers with its place among those of its topic. -/
theorem output_takes (hissues : ∀ op ∈ ops, Issues op) {topic : List Char} {op : Op}
    (hkind : op.kind = .incr (counterKey topic) 1) :
    ((after ops).apply op).2 = .value (some (Int64.ofNat (taken topic ops + 1))) := by
  rw [KvStore.apply, hkind]
  dsimp only
  rw [getInt_of_count (getElem?_counterKey hissues topic), ofNat_succ]

/-- A message stays unless it is stored again. -/
theorem getElem?_messageKey (hissues : ∀ op ∈ ops, Issues op) {topic : List Char} {offset : Int64}
    {message : Bytes} {place : Nat}
    (hstored : ∃ op, ops[place]? = some op ∧ op.kind = .set (messageKey topic offset) message)
    (honce : ∀ (later : Nat) (op : Op) (value : Bytes), ops[later]? = some op →
      op.kind = .set (messageKey topic offset) value → later = place) :
    (after ops).map[messageKey topic offset]? = some message := by
  induction ops using List.reverseRecOn with
  | nil =>
      obtain ⟨op, hop, -⟩ := hstored
      cases hop
  | append_singleton ops last ih =>
      obtain ⟨op, hop, hkind⟩ := hstored
      rw [after_concat]
      by_cases hlast : place = ops.length
      · rw [hlast, List.getElem?_append_right (Nat.le_refl _), Nat.sub_self] at hop
        obtain rfl : last = op := Option.some.inj hop
        rw [KvStore.apply, hkind]
        exact Std.ExtTreeMap.getElem?_insert_self
      · obtain ⟨hlength, -⟩ := List.getElem?_eq_some_iff.mp hop
        rw [List.length_append, List.length_singleton] at hlength
        have hearlier : place < ops.length := by omega
        rw [List.getElem?_append_left hearlier] at hop
        have hold : ∀ later op value, ops[later]? = some op →
            op.kind = .set (messageKey topic offset) value → later = place := by
          intro later other value hother
          obtain ⟨hlater, -⟩ := List.getElem?_eq_some_iff.mp hother
          refine honce later other value ?_
          rwa [List.getElem?_append_left hlater]
        rw [← ih (fun other hother => hissues other (List.mem_append_left _ hother)) ⟨op, hop, hkind⟩ hold]
        refine getElem?_apply (hissues last (List.mem_append_right _ (List.mem_singleton_self last)))
          (fun other _ hkey => counterKey_ne_messageKey _ _ _ hkey) (fun other place' value hset hkey => ?_) _
        rw [hkey] at hset
        refine hlast (honce ops.length last value ?_ hset).symm
        rw [List.getElem?_append_right (Nat.le_refl _), Nat.sub_self]
        rfl

/-- What is under a message's key was stored there. -/
theorem exists_stores (hissues : ∀ op ∈ ops, Issues op) {topic : List Char} {offset : Int64}
    {message : Bytes} (hget : (after ops).map[messageKey topic offset]? = some message) :
    ∃ (place : Nat) (op : Op), ops[place]? = some op ∧ op.kind = .set (messageKey topic offset) message := by
  induction ops using List.reverseRecOn with
  | nil => cases hget
  | append_singleton ops last ih =>
      have hlast := hissues last (List.mem_append_right _ (List.mem_singleton_self last))
      rw [after_concat] at hget
      by_cases hkind : ∃ value, last.kind = .set (messageKey topic offset) value
      · obtain ⟨value, hkind⟩ := hkind
        rw [KvStore.apply, hkind] at hget
        have hvalue := Std.ExtTreeMap.getElem?_insert_self.symm.trans hget
        refine ⟨ops.length, last, ?_, ?_⟩
        · rw [List.getElem?_append_right (Nat.le_refl _), Nat.sub_self]
          rfl
        · rw [hkind, Option.some.inj hvalue]
      · rw [getElem?_apply hlast (fun _ _ hkey => counterKey_ne_messageKey _ _ _ hkey)
          fun other place value hset hkey => hkind ⟨value, by rw [hset, hkey]⟩] at hget
        obtain ⟨place, op, hop, hstores⟩ :=
          ih (fun op hop => hissues op (List.mem_append_left _ hop)) hget
        refine ⟨place, op, ?_, hstores⟩
        rw [List.getElem?_append_left (List.getElem?_eq_some_iff.mp hop).1]
        exact hop

/-- Of two increments of a topic, the later one finds a higher count. -/
theorem taken_take_lt {topic : List Char} {first second : Nat} {op : Op} (hop : ops[first]? = some op)
    (hkind : op.kind = .incr (counterKey topic) 1) (hlt : first < second) :
    taken topic (ops.take first) < taken topic (ops.take second) := by
  obtain ⟨hlength, rfl⟩ := List.getElem?_eq_some_iff.mp hop
  have hnext : taken topic (ops.take (first + 1)) = taken topic (ops.take first) + 1 := by
    rw [List.take_succ_eq_append_getElem hlength, taken_concat, if_pos hkind]
  have hearlier := (List.take_prefix_take_left (l := ops) (Nat.succ_le_of_lt hlt)).sublist
  have hle : taken topic (ops.take (first + 1)) ≤ taken topic (ops.take second) :=
    hearlier.countP_le
  omega

/-! ### What a request issues -/

def topicOf (parts : List (List Char)) : List Char := parts.getD 1 []

def messageOf (parts : List (List Char)) : Bytes := asBytes (String.ofList (parts.getD 2 []))

/-- The op that takes an offset. -/
def takeOp (client : UInt32) (seq : UInt64) (parts : List (List Char)) : Op :=
  { client, seq := seq + 1, kind := .incr (counterKey (topicOf parts)) 1 }

/-- The op that stores the message under it. -/
def storeOp (client : UInt32) (seq : UInt64) (parts : List (List Char)) (offset : Int64) : Op :=
  { client, seq := seq + 2, kind := .set (messageKey (topicOf parts) offset) (messageOf parts) }

/-- An op of a request and the answers the request had by then. -/
inductive Issued (client : UInt32) (seq : UInt64) (parts : List (List Char)) :
    List (Op × Option Output) → Op → Prop
  | reads {answers : List (Op × Option Output)} {op : Op} (hpub : isPub parts = false)
      (hread : op.isWrite = false) : Issued client seq parts answers op
  | takes (hpub : isPub parts = true) : Issued client seq parts [] (takeOp client seq parts)
  | stores (hpub : isPub parts = true) (offset : Int64) :
      Issued client seq parts [(takeOp client seq parts, some (.value (some offset)))]
        (storeOp client seq parts offset)

theorem silent_of_reaches {α : Type} {conv later : Conv α} {answers : List (Op × Option Output)}
    (hreaches : conv.Reaches answers later) (hsilent : conv.Silent) : later.Silent := by
  induction hreaches with
  | start => exact hsilent
  | apply answer _ ih => exact ih.2 answer
  | len count _ ih => exact ih count

theorem isPub_iff {parts : List (List Char)} :
    isPub parts = true ↔ name parts = "PUB".toList ∧ 3 ≤ parts.length := by
  rw [isPub, Bool.and_eq_true, decide_eq_true_eq, decide_eq_true_eq]

theorem issued_of_reaches {client : UInt32} {seq : UInt64} {parts : List (List Char)}
    {answers : List (Op × Option Output)} {op : Op} {next : Option Output → Conv (Turn UInt64)}
    (hreaches : (serve client seq parts).Reaches answers (.apply op next)) :
    Issued client seq parts answers op := by
  by_cases hpub : isPub parts = true
  · rw [serve, if_pos (isPub_iff.mp hpub)] at hreaches
    rcases Conv.reaches_apply hreaches with ⟨rfl, hsame⟩ | ⟨answer, rest, rfl, hrest⟩
    · obtain ⟨rfl, -⟩ := Conv.apply.inj hsame
      exact .takes hpub
    · dsimp only [Conv.bind] at hrest
      split at hrest
      · rename_i offset
        rcases Conv.reaches_apply hrest with ⟨rfl, hsame⟩ | ⟨stored, more, rfl, hmore⟩
        · obtain ⟨rfl, -⟩ := Conv.apply.inj hsame
          exact .stores hpub offset
        · cases (Conv.reaches_ret hmore).2
      · cases (Conv.reaches_ret hrest).2
  · refine .reads (Bool.eq_false_iff.mpr hpub) ?_
    exact (silent_of_reaches hreaches ((serve_silent_iff client seq parts).mpr hpub)).1

theorem Issued.issues {client : UInt32} {seq : UInt64} {parts : List (List Char)}
    {answers : List (Op × Option Output)} {op : Op} (hissued : Issued client seq parts answers op) :
    Issues op := by
  cases hissued with
  | reads _ hread => exact .reads hread
  | takes hpub => exact .takes (topicOf parts) rfl
  | stores hpub offset => exact .stores (topicOf parts) offset (messageOf parts) rfl

/-! ### The executions of a server -/

/-- The server through its crashes, nothing being asked of the connections' variables. -/
abbrev Continues (handed : Nat) (executions : List (Execution streamlog)) (world : World streamlog) :
    Prop :=
  World.Continues numbering (fun _ => ()) (fun _ _ => ()) handed executions world

section Executions

variable {handed : Nat} {executions : List (Execution streamlog)} {world : World streamlog}
  {first second : Nat} {execution : Execution streamlog}

theorem issued (hcontinues : Continues handed executions world) (hmem : execution ∈ executions) :
    ∃ parts, execution.serving.request = some parts
      ∧ Issued execution.serving.client execution.serving.conn parts execution.answers execution.op := by
  obtain ⟨-, parts, next, hrequest, hreaches⟩ := hcontinues.serves.executed execution hmem
  exact ⟨parts, hrequest, issued_of_reaches hreaches⟩

theorem issues (hcontinues : Continues handed executions world) {count : Nat} {op : Op}
    (hop : op ∈ (executions.take count).map Execution.op) : Issues op := by
  obtain ⟨execution, hmem, rfl⟩ := List.mem_map.mp hop
  obtain ⟨parts, -, hissued⟩ := issued hcontinues (List.mem_of_mem_take hmem)
  exact hissued.issues

theorem stored_eq_after (count : Nat) :
    stored StateMachine.default (executions.take count)
      = after ((executions.map Execution.op).take count) := by
  rw [stored, after, List.map_take.symm, List.foldl_map]

/-- An execution that takes an offset of a topic. -/
def Takes (executions : List (Execution streamlog)) (place : Nat) (serving : Serving streamlog)
    (parts : List (List Char)) (offset : Int64) : Prop :=
  executions[place]? = some
      { serving, answers := [], op := takeOp serving.client serving.conn parts }
    ∧ offset = Int64.ofNat (taken (topicOf parts) ((executions.map Execution.op).take place) + 1)

/-- An answer to the op that takes an offset is from such an execution. -/
theorem takes_of_explained (hcontinues : Continues handed executions world)
    {serving : Serving streamlog} {parts : List (List Char)} {offset : Int64} {place : Nat}
    (hexplained : Explained StateMachine.default executions serving place
      [(takeOp serving.client serving.conn parts, some (.value (some offset)))]) :
    ∃ first < place, Takes executions first serving parts offset := by
  obtain ⟨earlier, first, rfl, -, -, hexecuted, hout⟩ := @Explained.last streamlog _ _ _ _ [] _ _ hexplained
  refine ⟨first, Nat.lt_succ_self first, hexecuted, ?_⟩
  rw [stored_eq_after, output_takes (fun op hop => ?_) rfl] at hout
  · injection hout with hvalue
    injection hvalue
  · rw [← List.map_take] at hop
    exact issues hcontinues hop

/-- Behind every stored message there is the execution that took its offset. -/
theorem takes_of_stores (hcontinues : Continues handed executions world)
    (hexecution : executions[second]? = some execution) {topic : List Char} {offset : Int64}
    {message : Bytes} (hkind : execution.op.kind = .set (messageKey topic offset) message) :
    ∃ parts, ∃ first < second, execution.serving.request = some parts
      ∧ topicOf parts = topic ∧ messageOf parts = message
      ∧ execution.op = storeOp execution.serving.client execution.serving.conn parts offset
      ∧ Takes executions first execution.serving parts offset := by
  obtain ⟨parts, hrequest, hissued⟩ := issued hcontinues (List.mem_of_getElem? hexecution)
  obtain ⟨earlier, hearlier, hexplained⟩ := hcontinues.grounded second execution hexecution
  obtain ⟨serving, answers, op⟩ := execution
  dsimp only at hrequest hkind hissued hexplained ⊢
  cases hissued with
  | reads _ hread =>
      rw [Op.isWrite, hkind] at hread
      cases hread
  | takes hpub => cases hkind
  | stores hpub place =>
      obtain ⟨hkey, hmessage⟩ := OpKind.set.inj hkind
      obtain ⟨htopic, rfl⟩ := messageKey_inj hkey
      obtain ⟨first, hfirst, htakes⟩ := takes_of_explained hcontinues hexplained
      exact ⟨parts, first, by omega, hrequest, htopic, hmessage, rfl, htakes⟩

/-- Offsets do not wrap in a run of this length. -/
theorem ofNat_inj {first second : Nat} (hfirst : first < 9223372036854775808)
    (hsecond : second < 9223372036854775808)
    (hsame : Int64.ofNat first = Int64.ofNat second) : first = second := by
  have hints := congrArg Int64.toInt hsame
  rw [Int64.toInt_ofNat_of_lt (by omega), Int64.toInt_ofNat_of_lt (by omega)] at hints
  omega

theorem taken_le (topic : List Char) (count : Nat) :
    taken topic ((executions.map Execution.op).take count) ≤ executions.length := by
  refine (List.countP_le_length).trans ?_
  rw [List.length_take, List.length_map]
  exact Nat.min_le_right _ _

/-- **An offset is taken once.** -/
theorem Takes.unique (hfew : executions.length < 9223372036854775807)
    {serving other : Serving streamlog} {parts others : List (List Char)} {offset : Int64}
    (hfirst : Takes executions first serving parts offset)
    (hsecond : Takes executions second other others offset) (htopic : topicOf parts = topicOf others) :
    first = second := by
  obtain ⟨hexecuted, hoffset⟩ := hfirst
  obtain ⟨hexecuted', hoffset'⟩ := hsecond
  rw [htopic] at hoffset
  have hless := @taken_le executions (topicOf others)
  have hcounts := ofNat_inj (Nat.lt_of_le_of_lt (Nat.succ_le_succ (hless first)) (by omega))
    (Nat.lt_of_le_of_lt (Nat.succ_le_succ (hless second)) (by omega)) (hoffset.symm.trans hoffset')
  have hop : ∀ {place : Nat} {serving : Serving streamlog} {parts : List (List Char)},
      executions[place]? = some
        { serving, answers := [], op := takeOp serving.client serving.conn parts } →
      (executions.map Execution.op)[place]?
        = some (takeOp serving.client serving.conn parts) := by
    intro place serving parts hexecuted
    rw [List.getElem?_map, hexecuted]
    rfl
  rcases Nat.lt_trichotomy first second with hlt | hsame | hlt
  · have hkind : (takeOp serving.client serving.conn parts).kind
        = .incr (counterKey (topicOf others)) 1 := by rw [← htopic]; rfl
    have hmore := taken_take_lt (hop hexecuted) hkind hlt
    omega
  · exact hsame
  · have hmore := @taken_take_lt _ (topicOf others) _ _ _ (hop hexecuted') rfl hlt
    omega

/-- **A message is stored once.** -/
theorem stores_unique (hcontinues : Continues handed executions world)
    (hfew : executions.length < 9223372036854775807) {other : Execution streamlog}
    (hfirst : executions[first]? = some execution) (hsecond : executions[second]? = some other)
    {topic : List Char} {offset : Int64} {message value : Bytes}
    (hkind : execution.op.kind = .set (messageKey topic offset) message)
    (hkind' : other.op.kind = .set (messageKey topic offset) value) : first = second := by
  obtain ⟨parts, taken, -, -, htopic, -, hop, htakes⟩ := takes_of_stores hcontinues hfirst hkind
  obtain ⟨others, taken', -, -, htopic', -, hop', htakes'⟩ := takes_of_stores hcontinues hsecond hkind'
  obtain rfl := htakes.unique hfew htakes' (htopic.trans htopic'.symm)
  have hserving := congrArg Execution.serving (Option.some.inj (htakes.1.symm.trans htakes'.1))
  -- one request, and so one dedup key
  dsimp only at hserving
  have hkey : execution.key = other.key := by
    rw [Execution.key, Execution.key, hop, hop', hserving]
    rfl
  have hlength : first < (executions.map Execution.key).length := by
    rw [List.length_map]
    exact (List.getElem?_eq_some_iff.mp hfirst).1
  refine (List.getElem?_inj hlength hcontinues.serves.executes.keys).mp ?_
  rw [List.getElem?_map, List.getElem?_map, hfirst, hsecond]
  exact congrArg some hkey

/-! ### Acknowledged messages -/

/-- The reply acknowledges a message with an offset. -/
structure Acknowledged (reply : Served streamlog) (parts : List (List Char)) (offset : Int64) :
    Prop where
  request : reply.request = some parts
  pub : isPub parts = true
  output : reply.output = asBytes ("OFFSET " ++ showI64 offset ++ "\r\n")

theorem asBytes_inj {first second : String} (hbytes : asBytes first = asBytes second) :
    first = second := by
  have htext := congrArg fromUtf8 hbytes
  rw [fromUtf8_asBytes, fromUtf8_asBytes] at htext
  exact Option.some.inj htext

theorem offset_inj {first second : Int64}
    (hline : "OFFSET " ++ showI64 first ++ "\r\n" = "OFFSET " ++ showI64 second ++ "\r\n") :
    first = second := by
  have hlist := congrArg String.toList hline
  simp only [String.toList_append, List.append_assoc] at hlist
  exact showI64_inj (String.toList_inj.mp
    (List.append_cancel_right (List.append_cancel_left hlist)))

/-- What a request to publish comes to. -/
theorem output_pub {client : UInt32} {seq : UInt64} {parts : List (List Char)}
    (hpub : isPub parts = true) {answers : List (Op × Option Output)} {turn : Turn UInt64}
    (hends : (serve client seq parts).Ends answers turn) :
    (∃ offset out, answers = [(takeOp client seq parts, some (.value (some offset))),
        (storeOp client seq parts offset, out)]
        ∧ turn.output = asBytes ("OFFSET " ++ showI64 offset ++ "\r\n"))
      ∨ turn.output = asBytes "ERR unavailable\r\n" := by
  rw [serve, if_pos (isPub_iff.mp hpub)] at hends
  obtain ⟨answer, rest, hanswers, hrest⟩ := hends
  dsimp only [Conv.bind] at hrest
  split at hrest
  · rename_i offset
    obtain ⟨out, rest, rfl, rfl, rfl⟩ := hrest
    exact .inl ⟨offset, out, hanswers, rfl⟩
  · obtain ⟨rfl, rfl⟩ := hrest
    exact .inr rfl

/-- The answers of an acknowledged request. -/
theorem Acknowledged.answers {reply : Served streamlog} {parts : List (List Char)} {offset : Int64}
    (hack : Acknowledged reply parts offset)
    (hfollows : reply.Follows (fun _ => ()) fun _ _ => ()) :
    ∃ out, reply.answers = [(takeOp reply.client reply.conn parts, some (.value (some offset))),
      (storeOp reply.client reply.conn parts offset, out)] := by
  obtain ⟨-, asked, turn, hrequest, houtput, hends⟩ := hfollows
  obtain rfl : parts = asked := Option.some.inj (hack.request.symm.trans hrequest)
  rw [hack.output] at houtput
  rcases output_pub hack.pub hends with ⟨place, out, hanswers, hline⟩ | hline
  · obtain rfl := offset_inj (asBytes_inj (houtput.trans hline))
    exact ⟨out, hanswers⟩
  · have hfirst := congrArg (List.head? ∘ String.toList) (asBytes_inj (houtput.trans hline))
    simp only [Function.comp_apply, String.toList_append] at hfirst
    cases hfirst

/-- An acknowledged message has been stored under its offset. -/
theorem Acknowledged.stored (hcontinues : Continues handed executions world)
    {reply : Served streamlog} (hreply : reply ∈ world.replies) {parts : List (List Char)}
    {offset : Int64} (hack : Acknowledged reply parts offset) :
    ∃ first second : Nat, Takes executions first reply.serving parts offset
      ∧ executions[second]? = some {
          serving := reply.serving
          answers := [(takeOp reply.client reply.conn parts, some (.value (some offset)))]
          op := storeOp reply.client reply.conn parts offset } := by
  obtain ⟨out, hanswers⟩ := hack.answers (hcontinues.serves.replied reply hreply)
  have hsome : out ≠ none := hcontinues.attended.replies reply hreply
    (storeOp reply.client reply.conn parts offset, out) (by rw [hanswers]; simp)
  obtain ⟨value, rfl⟩ := Option.ne_none_iff_exists'.mp hsome
  obtain ⟨place, -, hexplained⟩ := hcontinues.serves.executes.replies reply hreply
  rw [hanswers] at hexplained
  let asked : List (Op × Option Output) :=
    [(takeOp reply.client reply.conn parts, some (.value (some offset)))]
  obtain ⟨earlier, second, -, -, hbefore, hexecuted, -⟩ :=
    @Explained.last streamlog _ _ _ _ asked _ _ hexplained
  obtain ⟨first, -, htakes⟩ := @takes_of_explained _ _ _ hcontinues reply.serving _ _ _ hbefore
  exact ⟨first, second, htakes, hexecuted⟩

end Executions

/-! ### Whole runs -/

section Runs

variable {interval : UInt64} {events : List (WorldEvent streamlog)}

theorem length_executes_le (world : World streamlog) (event : WorldEvent streamlog) :
    (world.executes event).length ≤ 1 := by
  rcases hnew : world.executes event with _ | ⟨execution, more⟩
  · exact Nat.zero_le 1
  · obtain ⟨_, _, _, _, _, _, -, -, -, -, -, -, hone⟩ :=
      @World.executes_cases _ world event execution (by rw [hnew]; exact List.mem_cons_self)
    rw [hnew] at hone
    rw [hone]
    exact Nat.le_refl 1

theorem length_trace_le (world : World streamlog) (events : List (WorldEvent streamlog)) :
    (Run.trace World.step World.executes world events).length ≤ events.length := by
  induction events generalizing world with
  | nil => exact Nat.le_refl 0
  | cons event events ih =>
      have hlater := ih (world.step event)
      have hone := length_executes_le world event
      rw [Run.trace, List.length_append, List.length_cons]
      omega

theorem continues (hpersists : Run.Guarded World.step (World.Persists numbering)
      (World.start interval) events)
    (hids : events.countP WorldEvent.accepts < 2 ^ 32 - 1) :
    Continues (events.countP WorldEvent.accepts)
      (Run.trace World.step World.executes (World.start interval) events)
      (Run.run World.step (World.start interval) events) :=
  World.continues_run (fun _ _ _ _ _ _ => rfl) hpersists hids

/-- The message is there, under an offset within its topic. -/
structure Kept (store : KvStore) (parts : List (List Char)) (offset : Int64) : Prop where
  message : store.map[messageKey (topicOf parts) offset]? = some (messageOf parts)
  within : ∃ length, store.map[counterKey (topicOf parts)]? = some (asBytes (showI64 length))
    ∧ 1 ≤ offset ∧ offset ≤ length

/-- What a restart finds, and a live engine has. -/
theorem store_eq_after {handed : Nat} {executions : List (Execution streamlog)}
    {world : World streamlog} (hcontinues : Continues handed executions world)
    (hruns : world.Runs History.Sound interval) (next : UInt64) :
    (startEngine world.history.disk next).state = after (executions.map Execution.op)
      ∧ ∀ engine ∈ world.history.engine, engine.state = after (executions.map Execution.op) := by
  have hstored : stored StateMachine.default executions = after (executions.map Execution.op) := by
    rw [stored, after, List.foldl_map]
  refine ⟨?_, fun engine hengine => ?_⟩
  · rw [← hstored]
    exact (World.restart_finds hruns hcontinues.appended next).1
  · rw [← hstored]
    exact hcontinues.serves.executes.live engine hengine

theorem kept_of_acknowledged {handed : Nat} {executions : List (Execution streamlog)}
    {world : World streamlog} (hcontinues : Continues handed executions world)
    (hfew : executions.length < 9223372036854775807) {reply : Served streamlog}
    (hreply : reply ∈ world.replies) {parts : List (List Char)} {offset : Int64}
    (hack : Acknowledged reply parts offset) :
    Kept (after (executions.map Execution.op)) parts offset := by
  obtain ⟨first, second, ⟨htaken, hoffset⟩, hexecuted⟩ := hack.stored hcontinues hreply
  have hissues : ∀ op ∈ executions.map Execution.op, Issues op := by
    intro op hop
    refine @issues _ _ _ hcontinues executions.length op ?_
    rwa [List.take_length]
  have hfirst : (executions.map Execution.op)[first]?
      = some (takeOp reply.client reply.conn parts) := by
    rw [List.getElem?_map, htaken]
    rfl
  have hless : taken (topicOf parts) ((executions.map Execution.op).take first)
      < taken (topicOf parts) (executions.map Execution.op) := by
    have hmore := @taken_take_lt _ (topicOf parts) _ _ _ hfirst rfl
      (List.getElem?_eq_some_iff.mp hfirst).1
    rwa [List.take_length] at hmore
  have hall : taken (topicOf parts) (executions.map Execution.op) ≤ executions.length := by
    have hle := @taken_le executions (topicOf parts) (executions.map Execution.op).length
    rwa [List.take_length] at hle
  refine ⟨?_, Int64.ofNat (taken (topicOf parts) (executions.map Execution.op)), ?_, ?_, ?_⟩
  · refine @getElem?_messageKey _ hissues _ _ _ second
      ⟨storeOp reply.client reply.conn parts offset, ?_, rfl⟩ ?_
    · rw [List.getElem?_map, hexecuted]
      rfl
    · intro later op value hop hkind
      rw [List.getElem?_map] at hop
      obtain ⟨other, hother, rfl⟩ := Option.map_eq_some_iff.mp hop
      exact stores_unique hcontinues hfew hother hexecuted hkind rfl
  · rw [getElem?_counterKey hissues, if_neg (by omega)]
  · rw [hoffset, Int64.le_iff_toInt_le, Int64.toInt_ofNat_of_lt (by omega)]
    change (1 : Int) ≤ _
    omega
  · rw [hoffset, Int64.le_iff_toInt_le, Int64.toInt_ofNat_of_lt (by omega),
      Int64.toInt_ofNat_of_lt (by omega)]
    omega

/-- **Acknowledgements of one topic carry different offsets.** -/
theorem offsets_differ {handed : Nat} {executions : List (Execution streamlog)}
    {world : World streamlog} (hcontinues : Continues handed executions world)
    (hfew : executions.length < 9223372036854775807) :
    world.replies.Pairwise fun reply other => ∀ parts others offset place,
      Acknowledged reply parts offset → Acknowledged other others place →
        topicOf parts = topicOf others → offset ≠ place := by
  refine hcontinues.separates.replies.imp_of_mem ?_
  rintro reply other hreply hother hdisjoint parts others offset place hack hack' htopic rfl
  obtain ⟨first, -, htakes, -⟩ := hack.stored hcontinues hreply
  obtain ⟨second, -, htakes', -⟩ := hack'.stored hcontinues hother
  obtain rfl := htakes.unique hfew htakes' htopic
  have hserving := congrArg Execution.serving (Option.some.inj (htakes.1.symm.trans htakes'.1))
  obtain ⟨out, hanswers⟩ := hack.answers (hcontinues.serves.replied reply hreply)
  obtain ⟨out', hanswers'⟩ := hack'.answers (hcontinues.serves.replied other hother)
  have hclient : reply.client = other.client := congrArg Serving.client hserving
  have hconn : reply.conn = other.conn := congrArg Serving.conn hserving
  let op := takeOp reply.client reply.conn parts
  have hkey : (op.client, op.seq) ∈ answeredKeys reply.answers := by
    rw [hanswers]
    exact List.mem_filterMap.mpr ⟨_, List.mem_cons_self, rfl⟩
  refine hdisjoint hkey ?_
  rw [hanswers', ← hclient, ← hconn]
  exact List.mem_filterMap.mpr ⟨_, List.mem_cons_self, rfl⟩

/-- One call of a connection, from being made to being answered. -/
def call (handle : Nat) : List (WorldEvent streamlog) :=
  [.send handle, .execute Faults.clean 0, .receive handle]

def pub (message : Char) : List (List Char) := ["PUB".toList, ['a'], [message]]

/-- Two connections publish to one topic at the same time, the process dies, and a third one publishes
after the restart. -/
def publishAndRestart : List (WorldEvent streamlog) :=
  [.accept 0 1, .accept 1 2, .request 0 (pub 'x'), .request 1 (pub 'y')]
    ++ call 0 ++ call 1 ++ call 1 ++ [.reply 1] ++ call 0 ++ [.reply 0, .crash, .restart 2]
    ++ [.accept 2 3, .request 2 (pub 'z')] ++ call 2 ++ call 2 ++ [.reply 2]

/-- The requests and the replies to them. -/
def shown (world : World streamlog) : List (Option (List (List Char)) × Bytes) :=
  world.replies.map fun reply => (reply.request, reply.output)

/-- The execution is the first of a request to publish to the topic. -/
def publishes (topic : List Char) (execution : Execution streamlog) : Bool :=
  (execution.serving.request.any fun parts => isPub parts && topicOf parts = topic)
    && execution.answers.isEmpty

theorem publishes_iff {topic : List Char} {execution : Execution streamlog}
    {parts : List (List Char)} (hrequest : execution.serving.request = some parts)
    (hissued : Issued execution.serving.client execution.serving.conn parts execution.answers
      execution.op) :
    execution.op.kind = .incr (counterKey topic) 1 ↔ publishes topic execution = true := by
  obtain ⟨⟨client, conn, request, earlier⟩, answers, op⟩ := execution
  dsimp only at hrequest hissued ⊢
  subst hrequest
  cases hissued with
  | reads hpub hread =>
      refine iff_of_false (fun hkind => ?_) ?_
      · rw [Op.isWrite, hkind] at hread
        cases hread
      · simp [publishes, hpub]
  | takes hpub =>
      have hkey : (takeOp client conn parts).kind = .incr (counterKey topic) 1
          ↔ topicOf parts = topic := by
        refine ⟨fun hkind => ?_, fun hsame => by rw [← hsame]; rfl⟩
        exact counterKey_inj (OpKind.incr.inj hkind).1
      rw [hkey]
      simp [publishes, hpub]
  | stores hpub offset =>
      refine iff_of_false (fun hkind => by cases hkind) ?_
      simp [publishes]

theorem taken_eq_countP {handed : Nat} {executions : List (Execution streamlog)}
    {world : World streamlog} (hcontinues : Continues handed executions world) (topic : List Char)
    (count : Nat) :
    taken topic ((executions.map Execution.op).take count)
      = (executions.take count).countP (publishes topic) := by
  rw [taken, ← List.map_take, List.countP_map]
  refine List.countP_congr fun execution hexecution => ?_
  obtain ⟨parts, hrequest, hissued⟩ := issued hcontinues (List.mem_of_mem_take hexecution)
  simp only [Function.comp_apply, decide_eq_true_eq]
  exact publishes_iff hrequest hissued

/-- **Topics do not touch each other.** Whatever the topics are called: in every state, in the engine
and in what a restart finds, the length of a topic is the number of requests executed that publish to
this topic, and a message of it is one that such a request has published, under its place among
them. -/
theorem topics_apart (hpersists : Run.Guarded World.step (World.Persists numbering)
      (World.start interval) events)
    (hids : events.countP WorldEvent.accepts < 2 ^ 32 - 1) (next : UInt64) :
    let world := Run.run World.step (World.start interval : World streamlog) events
    let executions := Run.trace World.step World.executes (World.start interval) events
    let store := (startEngine world.history.disk next).state
    (∀ engine ∈ world.history.engine, engine.state = store)
      ∧ ∀ topic, (store.map[counterKey topic]? = if executions.countP (publishes topic) = 0 then none
          else some (asBytes (showI64 (Int64.ofNat (executions.countP (publishes topic))))))
        ∧ ∀ offset message, store.map[messageKey topic offset]? = some message →
          ∃ (place : Nat) (execution : Execution streamlog) (parts : List (List Char)),
            executions[place]? = some execution ∧ publishes topic execution = true
              ∧ execution.serving.request = some parts ∧ messageOf parts = message
              ∧ offset = Int64.ofNat ((executions.take place).countP (publishes topic) + 1) := by
  intro world executions store
  have hcontinues : Continues (events.countP WorldEvent.accepts) executions world :=
    continues hpersists hids
  obtain ⟨hstore, hlive⟩ := store_eq_after hcontinues
    (World.runs_atomic (World.Persists.atomic hpersists)) next
  have hissues : ∀ op ∈ executions.map Execution.op, Issues op := by
    intro op hop
    refine @issues _ _ _ hcontinues executions.length op ?_
    rwa [List.take_length]
  refine ⟨fun engine hengine => (hlive engine hengine).trans hstore.symm, fun topic => ⟨?_, ?_⟩⟩
  · have hcount := taken_eq_countP hcontinues topic executions.length
    rw [← List.map_take, List.take_length] at hcount
    rw [show store = _ from hstore, getElem?_counterKey hissues, hcount]
  · intro offset message hget
    rw [show store = _ from hstore] at hget
    obtain ⟨second, op, hop, hkind⟩ := exists_stores hissues hget
    rw [List.getElem?_map] at hop
    obtain ⟨execution, hexecution, rfl⟩ := Option.map_eq_some_iff.mp hop
    obtain ⟨parts, first, -, hrequest, htopic, hmessage, -, htaken, hoffset⟩ :=
      takes_of_stores hcontinues hexecution hkind
    obtain ⟨asked, hasked, hissued⟩ := issued hcontinues (List.mem_of_getElem? htaken)
    refine ⟨first, _, parts, htaken, ?_, hrequest, hmessage, ?_⟩
    · refine (publishes_iff hasked hissued).mp ?_
      rw [← htopic]
      rfl
    · rw [hoffset, htopic, taken_eq_countP hcontinues]

/-- The topic that was published to, and another one whose name is that of a message. -/
theorem topics_apart_publishAndRestart :
    (startEngine (Run.run World.step (World.start 2 : World streamlog)
        publishAndRestart).history.disk 4).state.map[counterKey ['a']]? = some (asBytes "3")
      ∧ (startEngine (Run.run World.step (World.start 2 : World streamlog)
        publishAndRestart).history.disk 4).state.map[counterKey ['a', ':', '1']]? = none := by
  have hpersists : Run.Guarded World.step (World.Persists numbering) (World.start 2)
      publishAndRestart := by decide +kernel
  obtain ⟨-, htopics⟩ := topics_apart hpersists (by decide +kernel) 4
  refine ⟨(htopics ['a']).1.trans ?_, (htopics ['a', ':', '1']).1.trans ?_⟩
  · decide +kernel
  · decide +kernel

end Runs

end OneBarrier.StreamLog
