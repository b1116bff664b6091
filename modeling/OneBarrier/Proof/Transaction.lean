import OneBarrier.Proof.Server
import OneBarrier.Proof.Replies
import OneBarrier.Frontend.Txn

/-!
# Transactions

A transaction is one op, so it recovers as one: the writes of the lines between `BEGIN` and `COMMIT`
are applied in one block, or not at all. The write list has to fit its count field: of a longer one
only the front survives a recovery.
-/

namespace OneBarrier

open Wire Utf8 Durable

namespace Txn

/-- The write of a `SET` or `DEL` line. -/
def lineWrite (parts : List (List Char)) : Option (String × Option Bytes) :=
  let key := String.ofList (parts.getD 1 [])
  if name parts = "SET".toList ∧ 3 ≤ parts.length then
    some (key, some (asBytes (String.ofList (parts.getD 2 []))))
  else if name parts = "DEL".toList ∧ 2 ≤ parts.length then some (key, none)
  else none

/-- The writes of the open transaction, one line later; `none` is no transaction. -/
def track (pending : Option (List (String × Option Bytes))) (parts : List (List Char)) :
    Option (List (String × Option Bytes)) :=
  if name parts = "BEGIN".toList then some []
  else if name parts = "COMMIT".toList ∨ name parts = "ABORT".toList then none
  else
    match lineWrite parts with
    | some entry => pending.map (· ++ [entry])
    | none => pending

def pendingWrites (conn : Conn) : Option (List (String × Option Bytes)) :=
  if conn.inTxn then some conn.buf else none

/-- What the end of serving a line says: how the open transaction went on, and that only `COMMIT` is
answered as such. -/
structure Served (client : UInt32) (conn : Conn) (parts : List (List Char))
    (answers : List (Op × Option Output)) (turn : Turn Conn) : Prop where
  tracked : pendingWrites turn.conn = track (pendingWrites conn) parts
  commit : turn.output.head? = some 67 → ∃ answer, conn.inTxn = true
    ∧ answers = [({ client, seq := conn.seq + 1, kind := .txn conn.buf }, answer)]
    ∧ turn.output = asBytes ("COMMIT " ++ toString conn.buf.length ++ "\r\n")

theorem write_ends {client : UInt32} {conn : Conn} {parts : List (List Char)}
    {entry : String × Option Bytes} {answers : List (Op × Option Output)} {turn : Turn Conn}
    (hname : name parts ≠ "BEGIN".toList ∧ name parts ≠ "COMMIT".toList
      ∧ name parts ≠ "ABORT".toList) (hentry : lineWrite parts = some entry)
    (hends : (write client conn entry).Ends answers turn) :
    Served client conn parts answers turn := by
  have htrack : track (pendingWrites conn) parts = (pendingWrites conn).map (· ++ [entry]) := by
    simp only [track, hname, or_self, if_false, hentry]
  rw [write] at hends
  by_cases hopen : conn.inTxn = true
  · rw [if_pos hopen] at hends
    obtain ⟨-, rfl⟩ := hends
    refine ⟨?_, fun hhead => by cases hhead⟩
    rw [htrack]
    simp [pendingWrites, hopen]
  · rw [if_neg hopen] at hends
    obtain ⟨answer, rest, -, -, rfl⟩ := hends
    refine ⟨?_, fun hhead => by cases hhead⟩
    rw [htrack]
    simp [pendingWrites, hopen]

theorem serve_ends {client : UInt32} {conn : Conn} {parts : List (List Char)}
    {answers : List (Op × Option Output)} {turn : Turn Conn}
    (hends : (serve client conn parts).Ends answers turn) :
    Served client conn parts answers turn := by
  rw [serve] at hends
  dsimp only at hends
  split at hends
  · rename_i hbegin
    obtain ⟨-, rfl⟩ := hends
    exact ⟨by simp [pendingWrites, track, hbegin], fun hhead => by cases hhead⟩
  rename_i hbegin
  split at hends
  · rename_i hset
    refine write_ends ?_ ?_ hends
    · rw [hset.1]
      decide
    · rw [lineWrite, if_pos hset]
  rename_i hset
  split at hends
  · rename_i hdel
    refine write_ends ?_ ?_ hends
    · rw [hdel.1]
      decide
    · rw [lineWrite, if_neg hset, if_pos hdel]
  rename_i hdel
  have hnone : lineWrite parts = none := by rw [lineWrite, if_neg hset, if_neg hdel]
  have hkept : name parts ≠ "COMMIT".toList → name parts ≠ "ABORT".toList →
      track (pendingWrites conn) parts = pendingWrites conn := by
    intro hcommit habort
    simp only [track, hbegin, hcommit, habort, or_self, if_false, hnone]
  split at hends
  · rename_i hget
    have hsame := hkept (by rw [hget.1]; decide) (by rw [hget.1]; decide)
    obtain ⟨answer, rest, -, hrest⟩ := hends
    simp only [Conv.bind] at hrest
    split at hrest
    · obtain ⟨-, rfl⟩ := hrest
      refine ⟨hsame.symm, fun hhead => ?_⟩
      rw [asBytes_append, asBytes_append] at hhead
      cases hhead
    · obtain ⟨-, rfl⟩ := hrest
      exact ⟨hsame.symm, fun hhead => by cases hhead⟩
  split at hends
  · rename_i hcommit
    have htrack : track (pendingWrites conn) parts = none := by
      simp only [track, hcommit, if_pos, true_or]
      decide
    split at hends
    · rename_i hopen
      obtain ⟨answer, rest, hanswers, rfl, rfl⟩ := hends
      exact ⟨htrack.symm, fun _ => ⟨answer, hopen, hanswers, rfl⟩⟩
    · rename_i hopen
      obtain ⟨-, rfl⟩ := hends
      refine ⟨?_, fun hhead => by cases hhead⟩
      rw [htrack]
      simp [pendingWrites, hopen]
  rename_i hcommit
  split at hends
  · rename_i habort
    obtain ⟨-, rfl⟩ := hends
    refine ⟨?_, fun hhead => by cases hhead⟩
    simp [pendingWrites, track, habort]
  rename_i habort
  split at hends
  · obtain ⟨-, rfl⟩ := hends
    exact ⟨(hkept hcommit habort).symm, fun hhead => by cases hhead⟩
  · obtain ⟨-, rfl⟩ := hends
    exact ⟨(hkept hcommit habort).symm, fun hhead => by cases hhead⟩

end Txn

/-- The store a list of records leads to, from a given one. -/
def replayed (store : KvStore) (records : List Record) : KvStore :=
  records.foldl (fun store record => (store.apply record.2).1) store

/-- The store shows all of the transaction's writes, in order and with nothing in between, or it is
what the other ops alone lead to. -/
def AllOrNone (appended : List Record) (op : Op) (writes : List (String × Option Bytes))
    (store : KvStore) : Prop :=
  (∃ (before after : List Record) (ts : UInt64), appended = before ++ (ts, op) :: after
      ∧ (∀ record ∈ before ++ after, (record.2.client, record.2.seq) ≠ (op.client, op.seq))
      ∧ store = replayed ⟨writes.foldl KvStore.write (replayed ⟨∅⟩ before).map⟩ after)
    ∨ ((∀ record ∈ appended, record.2 ≠ op) ∧ store = replayed ⟨∅⟩ appended)

theorem allOrNone_of_replayed {appended : List Record} {client : UInt32} {seq : UInt64}
    {writes : List (String × Option Bytes)} {store : KvStore}
    (hkeys : (appended.map Record.key).Nodup) (hstore : store = replayed ⟨∅⟩ appended) :
    AllOrNone appended { client, seq, kind := .txn writes } writes store := by
  by_cases hmem : ∃ record ∈ appended, record.2 = { client, seq, kind := .txn writes }
  · left
    obtain ⟨⟨ts, op⟩, hrecord, rfl⟩ := hmem
    obtain ⟨before, after, rfl⟩ := List.append_of_mem hrecord
    refine ⟨before, after, ts, rfl, ?_, ?_⟩
    · intro other hother hsame
      have hmiddle := ((List.perm_middle.map Record.key).nodup_iff).mp hkeys
      rw [List.map_cons] at hmiddle
      have hkey : other.key = Record.key (ts, { client, seq, kind := .txn writes }) := hsame
      exact (List.nodup_cons.mp hmiddle).1 (hkey ▸ List.mem_map_of_mem hother)
    · rw [hstore, replayed, List.foldl_append]
      rfl
  · right
    exact ⟨fun record hrecord hsame => hmem ⟨record, hrecord, hsame⟩, hstore⟩

/-- **Transactions are atomic.** Within the formats' limits, and with nothing written behind a partial
record, whatever crashes or fails: a transaction that was answered with its count recovers with all
of its writes or with none, in every later state. -/
theorem commit_all_or_none {interval : UInt64} {events : List (WorldEvent txn)}
    (hsettles : Run.Guarded World.step (World.Delivers History.Settles)
      (World.start interval : World txn) events) :
    let world := Run.run World.step (World.start interval : World txn) events
    ∀ served ∈ world.replies, (asBytes "COMMIT ").isPrefixOf served.output = true →
      ∃ writes, served.earlier.foldl Txn.track none = some writes
        ∧ served.output = asBytes ("COMMIT " ++ toString writes.length ++ "\r\n")
        ∧ ∃ seq answer,
          served.answers = [({ client := served.client, seq, kind := .txn writes }, answer)]
            ∧ ∀ next : UInt64, AllOrNone world.history.appended
              { client := served.client, seq, kind := .txn writes } writes
              (Engine.recover world.history.disk next : Engine KvStore).state := by
  intro world served hserved houtput
  obtain ⟨hconn, request, turn, -, hturn, hends⟩ :=
    World.replies_follow (fun _ _ _ _ _ hends => (Txn.serve_ends hends).tracked) interval events
      served hserved
  obtain ⟨answer, hopen, hanswers, hcommit⟩ := (Txn.serve_ends hends).commit (by
    rw [← hturn]
    obtain ⟨rest, hrest⟩ := List.isPrefixOf_iff_prefix.mp houtput
    rw [← hrest]
    rfl)
  have hruns := World.runs_settles hsettles
  obtain ⟨inFlight, hobserved⟩ := hruns.observed
  refine ⟨served.conn.buf, ?_, hturn.trans hcommit, _, answer, hanswers, fun next => ?_⟩
  · have hpending : Txn.pendingWrites served.conn = some served.conn.buf := if_pos hopen
    exact hconn.symm.trans hpending
  · refine allOrNone_of_replayed hobserved.keys ?_
    rw [recover_toCore, hruns.coherent.recovered]
    exact hobserved.state

/-- Two writes committed, the process killed and started again. -/
def smallCommit : List (WorldEvent txn) :=
  [.accept 0 1, .request 0 ["BEGIN".toList], .reply 0,
    .request 0 ["SET".toList, "a".toList, "x".toList], .reply 0,
    .request 0 ["DEL".toList, "b".toList], .reply 0, .request 0 ["COMMIT".toList], .send 0,
    .execute Faults.clean 0, .receive 0, .reply 0, .crash, .restart 8]

theorem commit_all_or_none_after_crash :
    let world := Run.run World.step (World.start 8 : World txn) smallCommit
    (∃ served ∈ world.replies, served.output = asBytes "COMMIT 2\r\n")
      ∧ ∀ served ∈ world.replies, (asBytes "COMMIT ").isPrefixOf served.output = true →
        ∃ writes, served.earlier.foldl Txn.track none = some writes
          ∧ served.output = asBytes ("COMMIT " ++ toString writes.length ++ "\r\n")
          ∧ ∃ seq answer,
            served.answers = [({ client := served.client, seq, kind := .txn writes }, answer)]
              ∧ ∀ next : UInt64, AllOrNone world.history.appended
                { client := served.client, seq, kind := .txn writes } writes
                (Engine.recover world.history.disk next : Engine KvStore).state :=
  ⟨by decide +kernel, commit_all_or_none (by decide +kernel)⟩

/-! ### Long transactions -/

def setLine (key value : String) : List (List Char) := ["SET".toList, key.toList, value.toList]

/-- `count` writes to one key, and one to another. -/
def longCommit (count : Nat) : List (WorldEvent txn) :=
  [.accept 0 1, .request 0 ["BEGIN".toList], .reply 0]
    ++ ((List.replicate count [.request 0 (setLine "a" "x"), .reply 0]).flatten
    ++ [.request 0 (setLine "b" "y"), .reply 0, .request 0 ["COMMIT".toList], .send 0,
      .execute Faults.clean 0, .receive 0, .reply 0, .crash])

/-- A server that has done nothing but queue these writes. -/
def Queueing (world : World txn) (buf : List (String × Option Bytes)) : Prop :=
  ∃ nextId threads request earlier replies, world = { (World.start 8 : World txn) with
    nextId
    threads := Function.update threads 0
      { client := 1, conn := { seq := 0, buf, inTxn := true }, phase := .idle, request, earlier }
    replies }

theorem queueing_begin :
    Queueing (Run.run World.step (World.start 8)
      [.accept 0 1, .request 0 ["BEGIN".toList], .reply 0]) [] :=
  ⟨_, _, _, _, _, rfl⟩

theorem Queueing.set {world : World txn} {buf : List (String × Option Bytes)}
    (hqueueing : Queueing world buf) :
    Queueing (Run.run World.step world [.request 0 (setLine "a" "x"), .reply 0])
      (buf ++ [("a", some [120])]) := by
  obtain ⟨nextId, threads, request, earlier, replies, rfl⟩ := hqueueing
  exact ⟨_, _, _, _, _, rfl⟩

theorem Queueing.sets {world : World txn} {buf : List (String × Option Bytes)}
    (hqueueing : Queueing world buf) (count : Nat) :
    Queueing (Run.run World.step world
        (List.replicate count [.request 0 (setLine "a" "x"), .reply 0]).flatten)
      (buf ++ List.replicate count ("a", some [120])) := by
  induction count generalizing world buf with
  | zero => simpa using hqueueing
  | succ count ih =>
      have hlater := ih hqueueing.set
      rw [List.append_assoc] at hlater
      rw [List.replicate_succ, List.flatten_cons, Run.run_append, List.replicate_succ]
      exact hlater

theorem Queueing.commit {world : World txn} {buf : List (String × Option Bytes)}
    (hqueueing : Queueing world buf) :
    let writes := buf ++ [("b", some [121])]
    let after := Run.run World.step world
      [.request 0 (setLine "b" "y"), .reply 0, .request 0 ["COMMIT".toList], .send 0,
        .execute Faults.clean 0, .receive 0, .reply 0, .crash]
    after.history.disk
        = { oplog := some (encodeRecord 2 (Op.encode ⟨1, 1, .txn writes⟩)), snapshot := none }
      ∧ ∃ served ∈ after.replies,
        served.output = asBytes ("COMMIT " ++ toString writes.length ++ "\r\n") := by
  obtain ⟨nextId, threads, request, earlier, replies, rfl⟩ := hqueueing
  exact ⟨rfl, _, List.mem_append_right _ (List.mem_singleton_self _), rfl⟩

theorem getElem?_foldl_write_replicate (map : BTreeMap String Bytes) (key : String) (value : Bytes)
    (count : Nat) (other : String) :
    ((List.replicate count (key, some value)).foldl KvStore.write map)[other]?
      = if 0 < count ∧ key = other then some value else map[other]? := by
  induction count generalizing map with
  | zero => simp
  | succ count ih =>
      rw [List.replicate_succ, List.foldl_cons, ih, KvStore.write, Std.ExtTreeMap.getElem?_insert]
      by_cases hkey : key = other <;> simp [hkey]

/-- What `longCommit` queues. -/
def longWrites (count : Nat) : List (String × Option Bytes) :=
  List.replicate count ("a", some [120]) ++ [("b", some [121])]

theorem length_encode_longWrites (client : UInt32) (seq : UInt64) (count : Nat) :
    (Op.encode ⟨client, seq, .txn (longWrites count)⟩).length = 9 * count + 26 := by
  have hfirst : (encodeWrite ("a", some [120])).length = 9 := by decide
  have hlast : (encodeWrite ("b", some [121])).length = 9 := by decide
  have hkey : (asBytes "").length = 0 := by decide
  simp only [longWrites, Op.encode, Op.key, Op.encodeBody, List.length_append, length_leBytes,
    length_lengthBytes, List.length_cons, List.length_nil, hkey, List.length_flatMap,
    List.map_append, List.map_replicate, List.sum_append, List.sum_replicate_nat, hfirst, List.map_cons,
    hlast, List.map_nil, List.sum_cons, List.sum_nil]
  omega

theorem recovered_longCommit {count : Nat} (hcount : count = 2 ^ 16 - 1) (ts : UInt64) :
    (Disk.recovered KvStore { oplog := some (encodeRecord ts
        (Op.encode ⟨1, 1, .txn (longWrites count)⟩)), snapshot := none }).state
      = ⟨(List.replicate count ("a", some [120])).foldl KvStore.write ∅⟩ := by
  have hfits : ∀ write ∈ List.replicate count ("a", some ([120] : Bytes)), WriteFits write := by
    intro write hwrite
    rw [List.eq_of_mem_replicate hwrite]
    decide
  have hdecode : Op.decode (Op.encode ⟨1, 1, .txn (longWrites count)⟩)
      = some ⟨1, 1, .txn (List.replicate count ("a", some [120]))⟩ :=
    decode_encode_of_many_writes (List.length_replicate.trans hcount) hfits
  have hpayload : PayloadFits (Op.encode ⟨1, 1, .txn (longWrites count)⟩) := by
    rw [PayloadFits, length_encode_longWrites, hcount]
    decide
  rw [recovered_of_split_eq_singleton (congrArg Prod.fst (split_encodeRecord hpayload)), hdecode]
  rfl

theorem longCommit_torn {count : Nat} (hcount : count = 2 ^ 16 - 1) :
    let world := Run.run World.step (World.start 8 : World txn) (longCommit count)
    let recovered : Engine KvStore := Engine.recover world.history.disk 8
    (∃ served ∈ world.replies,
        served.output = asBytes ("COMMIT " ++ toString (count + 1) ++ "\r\n"))
      ∧ recovered.state.map["a"]? = some [120] ∧ recovered.state.map["b"]? = none := by
  intro world recovered
  obtain ⟨hdisk, served, hserved, houtput⟩ := (queueing_begin.sets count).commit
  rw [← Run.run_append, ← Run.run_append, List.nil_append] at hdisk
  rw [← Run.run_append, ← Run.run_append] at hserved
  have hstate : recovered.state
      = ⟨(List.replicate count ("a", some [120])).foldl KvStore.write ∅⟩ := by
    have hworld : world.history.disk = _ := hdisk
    rw [recover_toCore, hworld]
    exact recovered_longCommit hcount 2
  refine ⟨⟨served, hserved, ?_⟩, ?_, ?_⟩
  · rw [houtput, List.nil_append, List.length_append, List.length_replicate]
    rfl
  · rw [hstate, getElem?_foldl_write_replicate, if_pos]
    exact ⟨by omega, rfl⟩
  · rw [hstate, getElem?_foldl_write_replicate, if_neg (by simp)]
    rfl

/-- 65536 writes, answered with their count: a recovery shows the first 65535 and not the last. -/
theorem long_transaction_torn :
    let world := Run.run World.step (World.start 8 : World txn) (longCommit (2 ^ 16 - 1))
    let recovered : Engine KvStore := Engine.recover world.history.disk 8
    (∃ served ∈ world.replies, served.output = asBytes ("COMMIT " ++ toString (2 ^ 16) ++ "\r\n"))
      ∧ recovered.state.map["a"]? = some [120] ∧ recovered.state.map["b"]? = none :=
  longCommit_torn (by decide)

end OneBarrier
