import OneBarrier.Proof.Process
import OneBarrier.Proof.Transaction

/-!
# Transactions are isolated

Every line that reads or writes the store does so with one op, so the order in which the executor
takes the ops is an order of lines. The store is what these lines do to it one after the other: a
write outside a transaction on its own, a `COMMIT` all the writes queued since the `BEGIN`. Nothing
else reaches the store, and every `GET` is answered from it.
-/

namespace OneBarrier

open Wire Utf8 Durable

namespace Txn

/-- A line the executor served: whose it is, and the lines its connection had sent before. -/
structure Line where
  client : UInt32
  earlier : List (List (List Char))
  parts : List (List Char)

/-- What a line does to the store. -/
def effect (line : Line) : List (String × Option Bytes) :=
  match line.earlier.foldl track none with
  | none => (lineWrite line.parts).toList
  | some writes => if name line.parts = "COMMIT".toList then writes else []

/-- The lines one after the other. -/
def outcome (initial : KvStore) (lines : List Line) : KvStore :=
  lines.foldl (fun store line => ⟨(effect line).foldl KvStore.write store.map⟩) initial

def IsGet (parts : List (List Char)) : Prop := name parts = "GET".toList ∧ 2 ≤ parts.length

instance (parts : List (List Char)) : Decidable (IsGet parts) := inferInstanceAs (Decidable (_ ∧ _))

def key (parts : List (List Char)) : String := String.ofList (parts.getD 1 [])

def getReply : Option Bytes → Bytes
  | some value => asBytes ("VALUE " ++ toString value.length ++ "\r\n") ++ value ++ asBytes "\r\n"
  | none => asBytes "NIL\r\n"

def lineOf (execution : Execution txn) : Option Line :=
  execution.serving.request.map fun parts =>
    { client := execution.serving.client, earlier := execution.serving.earlier, parts }

def lines (executions : List (Execution txn)) : List Line := executions.filterMap lineOf

/-- The op of a line, given the writes of the open transaction. -/
def asks (pending : Option (List (String × Option Bytes))) (parts : List (List Char)) :
    Option OpKind :=
  if IsGet parts then some (.get (key parts))
  else
    match pending with
    | none => (lineWrite parts).map fun entry => .txn [entry]
    | some writes => if name parts = "COMMIT".toList then some (.txn writes) else none

/-- The value in the answer to a `GET`. -/
def found : Option Output → Option Bytes
  | some (.bytes value) => value
  | _ => none

/-- The line's one op, and its reply. -/
structure Issues (client : UInt32) (conn : Conn) (parts : List (List Char)) (kind : OpKind)
    (next : Option Output → Conv (Turn Conn)) : Prop where
  serve : Txn.serve client conn parts = .apply { client, seq := conn.seq + 1, kind } next
  reply : ∀ answer, ∃ turn, next answer = .ret turn ∧ turn.conn.seq = conn.seq + 1
    ∧ (IsGet parts → turn.output = getReply (found answer))

/-- Serving the line is what it asks for. -/
def Serves (client : UInt32) (conn : Conn) (parts : List (List Char)) : Option OpKind → Prop
  | none => ∃ turn, serve client conn parts = .ret turn ∧ turn.conn.seq = conn.seq
  | some kind => ∃ next, Issues client conn parts kind next

theorem write_asks {client : UInt32} {conn : Conn} {parts : List (List Char)}
    {entry : String × Option Bytes} (hserve : serve client conn parts = write client conn entry)
    (hentry : lineWrite parts = some entry) (hget : ¬ IsGet parts)
    (hcommit : name parts ≠ "COMMIT".toList) :
    Serves client conn parts (asks (pendingWrites conn) parts) := by
  unfold asks
  rw [if_neg hget, pendingWrites]
  cases hopen : conn.inTxn with
  | true =>
      rw [if_pos rfl]
      dsimp only
      rw [if_neg hcommit]
      refine ⟨{ conn := { conn with buf := conn.buf ++ [entry] }, output := asBytes "QUEUED\r\n" },
        ?_, rfl⟩
      rw [hserve, write, hopen]
      rfl
  | false =>
      rw [if_neg (by simp), hentry]
      refine ⟨fun _ => .ret { conn := { conn with seq := conn.seq + 1 }, output := asBytes "OK\r\n" },
        ?_, fun answer => ⟨_, rfl, rfl, fun hread => absurd hread hget⟩⟩
      rw [hserve, write, hopen]
      rfl

theorem asks_eq_none {parts : List (List Char)} (hget : ¬ IsGet parts)
    (hwrite : lineWrite parts = none) (hcommit : name parts ≠ "COMMIT".toList)
    (pending : Option (List (String × Option Bytes))) : asks pending parts = none := by
  unfold asks
  rw [if_neg hget]
  cases pending with
  | none => rw [hwrite, Option.map_none]
  | some writes => exact if_neg hcommit

theorem serve_asks (client : UInt32) (conn : Conn) (parts : List (List Char)) :
    Serves client conn parts (asks (pendingWrites conn) parts) := by
  have hserve := serve.eq_def client conn parts
  dsimp only at hserve
  split at hserve
  · rename_i hbegin
    have hget : ¬ IsGet parts := by
      rw [IsGet, hbegin]
      exact fun hread => absurd hread.1 (by decide)
    have hwrite : lineWrite parts = none := by
      have hset : "BEGIN".toList ≠ "SET".toList := by decide
      have hdel : "BEGIN".toList ≠ "DEL".toList := by decide
      rw [lineWrite, hbegin, if_neg fun hand => hset hand.1, if_neg fun hand => hdel hand.1]
    rw [asks_eq_none hget hwrite (by rw [hbegin]; decide)]
    exact ⟨_, hserve, rfl⟩
  split at hserve
  · rename_i hset
    refine write_asks hserve (by rw [lineWrite, if_pos hset]) ?_ (by rw [hset.1]; decide)
    rw [IsGet, hset.1]
    exact fun hread => absurd hread.1 (by decide)
  rename_i hset
  split at hserve
  · rename_i hdel
    refine write_asks hserve (by rw [lineWrite, if_neg hset, if_pos hdel]) ?_
      (by rw [hdel.1]; decide)
    rw [IsGet, hdel.1]
    exact fun hread => absurd hread.1 (by decide)
  rename_i hdel
  have hwrite : lineWrite parts = none := by rw [lineWrite, if_neg hset, if_neg hdel]
  split at hserve
  · rename_i hget
    have hasks : asks (pendingWrites conn) parts = some (.get (key parts)) := by
      unfold asks
      exact if_pos hget
    rw [hasks]
    refine ⟨_, hserve, fun answer => ?_⟩
    dsimp only [Conv.bind]
    split
    · exact ⟨_, rfl, rfl, fun _ => rfl⟩
    · rename_i hmiss
      refine ⟨_, rfl, rfl, fun _ => ?_⟩
      have hnone : found answer = none := by
        unfold found
        split
        · rename_i value
          cases value with
          | none => rfl
          | some value => exact absurd rfl (hmiss value)
        · rfl
      rw [hnone]
      rfl
  rename_i hmiss
  have hget : ¬ IsGet parts := hmiss
  split at hserve
  · rename_i hcommit
    unfold asks
    rw [if_neg hget, pendingWrites]
    split at hserve
    · rename_i hopen
      rw [if_pos hopen]
      dsimp only
      rw [if_pos hcommit]
      exact ⟨_, hserve, fun answer => ⟨_, rfl, rfl, fun hread => absurd hread hget⟩⟩
    · rename_i hclosed
      rw [if_neg hclosed, hwrite]
      exact ⟨_, hserve, rfl⟩
  rename_i hcommit
  rw [asks_eq_none hget hwrite hcommit]
  split at hserve
  · exact ⟨_, hserve, rfl⟩
  split at hserve
  · exact ⟨_, hserve, rfl⟩
  · exact ⟨_, hserve, rfl⟩

/-- The writes of the open transaction and the connection's number, one line later. -/
def follow (state : Option (List (String × Option Bytes)) × UInt64) (parts : List (List Char)) :
    Option (List (String × Option Bytes)) × UInt64 :=
  (track state.1 parts, if (asks state.1 parts).isSome then state.2 + 1 else state.2)

def view (conn : Conn) : Option (List (String × Option Bytes)) × UInt64 :=
  (pendingWrites conn, conn.seq)

theorem view_ends {client : UInt32} {conn : Conn} {parts : List (List Char)}
    {answers : List (Op × Option Output)} {turn : Turn Conn}
    (hends : (serve client conn parts).Ends answers turn) :
    view turn.conn = follow (view conn) parts := by
  refine Prod.ext (serve_ends hends).tracked ?_
  have hserves := serve_asks client conn parts
  change turn.conn.seq = if (asks (pendingWrites conn) parts).isSome then conn.seq + 1 else conn.seq
  cases hasks : asks (pendingWrites conn) parts with
  | none =>
      rw [hasks] at hserves
      obtain ⟨other, hserve, hseq⟩ := hserves
      rw [hserve] at hends
      obtain ⟨-, rfl⟩ := hends
      exact hseq
  | some kind =>
      rw [hasks] at hserves
      obtain ⟨next, hserve, hreply⟩ := hserves
      rw [hserve] at hends
      obtain ⟨answer, rest, -, hrest⟩ := hends
      obtain ⟨other, hother, hseq, -⟩ := hreply answer
      rw [hother] at hrest
      obtain ⟨-, rfl⟩ := hrest
      exact hseq

/-- The fold keeps the writes of the open transaction. -/
theorem fst_foldl_follow (state : Option (List (String × Option Bytes)) × UInt64)
    (earlier : List (List (List Char))) :
    (earlier.foldl follow state).1 = earlier.foldl track state.1 := by
  induction earlier generalizing state with
  | nil => rfl
  | cons parts earlier ih => exact ih _

/-- What an op of a line does to the store is what the line does. -/
theorem apply_asks {earlier : List (List (List Char))} {parts : List (List Char)} {kind : OpKind}
    (hasks : asks (earlier.foldl track none) parts = some kind) (client owner : UInt32)
    (seq : UInt64) (store : KvStore) :
    (store.apply { client, seq, kind }).1
      = ⟨(effect ⟨owner, earlier, parts⟩).foldl KvStore.write store.map⟩ := by
  unfold asks at hasks
  rw [effect]
  dsimp only
  split at hasks
  · rename_i hget
    obtain rfl := Option.some.inj hasks
    have hwrite : lineWrite parts = none := by
      have hset : "GET".toList ≠ "SET".toList := by decide
      have hdel : "GET".toList ≠ "DEL".toList := by decide
      rw [lineWrite, hget.1, if_neg fun hand => hset hand.1, if_neg fun hand => hdel hand.1]
    have hcommit : name parts ≠ "COMMIT".toList := by rw [hget.1]; decide
    split
    · rw [hwrite]
      rfl
    · rw [if_neg hcommit]
      rfl
  · split
    · rename_i hclosed
      rw [hclosed] at hasks
      obtain ⟨entry, hentry, rfl⟩ := Option.map_eq_some_iff.mp hasks
      rw [hentry]
      rfl
    · rename_i writes hopen
      rw [hopen] at hasks
      dsimp only at hasks
      split at hasks
      · rename_i hcommit
        obtain rfl := Option.some.inj hasks
        rw [if_pos hcommit]
        rfl
      · cases hasks

/-- An execution is of a line that asks for its op, under the number its earlier lines lead to. -/
theorem execution_asks {execution : Execution txn} (hfollows : execution.Follows view follow) :
    ∃ parts kind, execution.serving.request = some parts
      ∧ asks (execution.serving.earlier.foldl track none) parts = some kind
      ∧ execution.op = { client := execution.serving.client
                         seq := (execution.serving.earlier.foldl follow (none, 0)).2 + 1, kind } := by
  obtain ⟨hview, parts, next, hrequest, hreaches⟩ := hfollows
  have hpending : pendingWrites execution.serving.conn
      = execution.serving.earlier.foldl track none :=
    (congrArg Prod.fst hview).trans (fst_foldl_follow _ _)
  have hseq : execution.serving.conn.seq = (execution.serving.earlier.foldl follow (none, 0)).2 :=
    congrArg Prod.snd hview
  have hserves := serve_asks execution.serving.client execution.serving.conn parts
  rw [hpending] at hserves
  refine ⟨parts, ?_⟩
  cases hasks : asks (execution.serving.earlier.foldl track none) parts with
  | none =>
      rw [hasks] at hserves
      obtain ⟨turn, hserve, -⟩ := hserves
      change (serve _ _ parts).Reaches _ _ at hreaches
      rw [hserve] at hreaches
      cases (Conv.reaches_ret hreaches).2
  | some kind =>
      rw [hasks] at hserves
      obtain ⟨after, hserve, hreply⟩ := hserves
      change (serve _ _ parts).Reaches _ _ at hreaches
      rw [hserve] at hreaches
      rcases Conv.reaches_apply hreaches with ⟨-, hsame⟩ | ⟨answer, rest, -, hrest⟩
      · obtain ⟨hop, -⟩ := Conv.apply.inj hsame
        exact ⟨kind, hrequest, rfl, by rw [hop, hseq]⟩
      · obtain ⟨turn, hturn, -⟩ := hreply answer
        rw [hturn] at hrest
        cases (Conv.reaches_ret hrest).2

theorem lineOf_execution {execution : Execution txn} {parts : List (List Char)}
    (hrequest : execution.serving.request = some parts) :
    lineOf execution
      = some ⟨execution.serving.client, execution.serving.earlier, parts⟩ := by
  rw [lineOf, hrequest]
  rfl

theorem lines_append (executions more : List (Execution txn)) :
    lines (executions ++ more) = lines executions ++ lines more := List.filterMap_append

/-- The store the ops lead to is the one their lines lead to. -/
theorem stored_eq_outcome {executions : List (Execution txn)}
    (hfollows : ∀ execution ∈ executions, execution.Follows view follow) (initial : KvStore) :
    stored initial executions = outcome initial (lines executions) := by
  induction executions generalizing initial with
  | nil => rfl
  | cons execution executions ih =>
      obtain ⟨parts, kind, hrequest, hasks, hop⟩ :=
        execution_asks (hfollows execution List.mem_cons_self)
      rw [lines, List.filterMap_cons_some (lineOf_execution hrequest), outcome, List.foldl_cons,
        ← apply_asks hasks execution.op.client _ execution.op.seq]
      have hkind : (⟨execution.op.client, execution.op.seq, kind⟩ : Op) = execution.op := by
        rw [hop]
      rw [hkind]
      exact ih (fun other hother => hfollows other (List.mem_cons_of_mem _ hother)) _

/-- No line is served twice. -/
theorem nodup_lines {executions : List (Execution txn)}
    (hfollows : ∀ execution ∈ executions, execution.Follows view follow)
    (hkeys : (executions.map Execution.key).Nodup) : (lines executions).Nodup := by
  rw [List.Nodup, List.pairwise_map] at hkeys
  rw [lines, List.Nodup, List.pairwise_filterMap]
  refine hkeys.imp_of_mem fun {first second} hfirst hsecond hkey line hline other hother hsame => ?_
  obtain ⟨parts, kind, hrequest, hasks, hop⟩ := execution_asks (hfollows first hfirst)
  obtain ⟨parts', kind', hrequest', hasks', hop'⟩ := execution_asks (hfollows second hsecond)
  rw [lineOf_execution hrequest] at hline
  rw [lineOf_execution hrequest'] at hother
  obtain rfl := Option.some.inj hline
  obtain rfl := Option.some.inj hother
  obtain ⟨hclient, hearlier, -⟩ := Line.mk.inj hsame
  refine hkey ?_
  rw [Execution.key, Execution.key, hop, hop', hclient, hearlier]

/-- A line that asks for an op and has been answered has its place in the order. -/
theorem reply_place {initial : KvStore} {executions : List (Execution txn)}
    (hexecuted : ∀ execution ∈ executions, execution.Follows view follow)
    {reply : OneBarrier.Served txn} (hfollows : reply.Follows view follow)
    (hexplains : Explains initial executions reply.serving reply.answers)
    (hanswered : ∀ answer ∈ reply.answers, answer.2 ≠ none) {parts : List (List Char)}
    (hrequest : reply.request = some parts)
    (hsome : (asks (reply.earlier.foldl track none) parts).isSome) :
    ∃ before after, lines executions = before ++ ⟨reply.client, reply.earlier, parts⟩ :: after
      ∧ (IsGet parts → reply.output = getReply (outcome initial before).map[key parts]?) := by
  obtain ⟨hview, request, turn, hsame, houtput, hends⟩ := hfollows
  obtain rfl : parts = request := Option.some.inj (hrequest.symm.trans hsame)
  have hpending : pendingWrites reply.conn = reply.earlier.foldl track none :=
    (congrArg Prod.fst hview).trans (fst_foldl_follow _ _)
  obtain ⟨kind, hasks⟩ := Option.isSome_iff_exists.mp hsome
  have hserves := serve_asks reply.client reply.conn parts
  rw [hpending, hasks] at hserves
  obtain ⟨next, hserve, hreply⟩ := hserves
  change (serve _ _ parts).Ends _ _ at hends
  rw [hserve] at hends
  obtain ⟨answer, rest, hanswers, hrest⟩ := hends
  obtain ⟨other, hother, -, hget⟩ := hreply answer
  rw [hother] at hrest
  obtain ⟨rfl, rfl⟩ := hrest
  rw [hanswers] at hanswered hexplains
  obtain ⟨out, rfl⟩ := Option.ne_none_iff_exists'.mp (hanswered _ (List.mem_singleton_self _))
  obtain ⟨place, -, hexplained⟩ := hexplains
  obtain ⟨-, later, -, -, -, hexecution, hout⟩ := @Explained.last _ _ _ _ _ [] _ _ hexplained
  obtain ⟨hlater, hget'⟩ := List.getElem?_eq_some_iff.mp hexecution
  have hsplit : executions = executions.take later
      ++ executions[later] :: executions.drop (later + 1) := by
    rw [← List.drop_eq_getElem_cons hlater, List.take_append_drop]
  refine ⟨lines (executions.take later), lines (executions.drop (later + 1)), ?_, fun hread => ?_⟩
  · have hline : lineOf executions[later] = some ⟨reply.client, reply.earlier, parts⟩ := by
      rw [hget']
      exact lineOf_execution hrequest
    calc lines executions
        = lines (executions.take later ++ executions[later] :: executions.drop (later + 1)) := by
          rw [← hsplit]
      _ = _ := by
          rw [lines_append]
          congr 1
          exact List.filterMap_cons_some hline
  · have hkind : kind = .get (key parts) := by
      unfold asks at hasks
      rw [if_pos hread] at hasks
      exact (Option.some.inj hasks).symm
    have hfront : stored initial (executions.take later)
        = outcome initial (lines (executions.take later)) :=
      stored_eq_outcome (fun execution hmem => hexecuted execution (List.mem_of_mem_take hmem)) _
    rw [houtput, hget hread, hout, hkind, hfront]
    rfl

end Txn

/-- **Isolation.** One process on any directory, any connections and any interleaving of their lines,
as long as its executor lives: the store is what the lines the executor served do one after the other,
each of them once, and every line that reads or writes has its place among them; a `GET` is answered
with the value in the store at its place. -/
theorem txn_serializable {disk : Disk} {interval : UInt64} {events : List (WorldEvent txn)}
    (hlives : Run.Guarded World.step (fun world event => world.Lives Txn.numbering event
      ∧ world.SeqLeft Txn.numbering event) (World.boot disk interval) events)
    (hids : (startEngine disk interval).maxClient.toNat + events.countP WorldEvent.accepts
      < 2 ^ 32 - 1) :
    let world := Run.run World.step (World.boot disk interval : World txn) events
    let lines := Txn.lines (Run.trace World.step World.executes
      (World.boot disk interval : World txn) events)
    let initial := (startEngine disk interval).state
    ∀ engine ∈ world.history.engine, engine.state = Txn.outcome initial lines ∧ lines.Nodup
      ∧ ∀ reply ∈ world.replies, ∀ parts, reply.request = some parts →
        (Txn.asks (reply.earlier.foldl Txn.track none) parts).isSome →
          ∃ before after, lines = before ++ ⟨reply.client, reply.earlier, parts⟩ :: after
            ∧ (Txn.IsGet parts → reply.output
              = Txn.getReply (Txn.outcome initial before).map[Txn.key parts]?) := by
  intro world lines initial engine hengine
  obtain ⟨-, -, hexecutes, -, hexecuted, hreplied⟩ :=
    World.serves_run (fun _ _ _ _ _ hends => Txn.view_ends hends) hlives hids
  have hanswers := World.answers_run hlives
  refine ⟨?_, Txn.nodup_lines hexecuted hexecutes.keys, ?_⟩
  · rw [hexecutes.live engine hengine]
    exact Txn.stored_eq_outcome hexecuted _
  · intro reply hreply parts hrequest hsome
    have hlive : world.history.engine ≠ none := by
      rw [Option.mem_def.mp hengine]
      nofun
    exact Txn.reply_place hexecuted (hreplied reply hreply) (hexecutes.replies reply hreply)
      (hanswers.replies hlive reply hreply) hrequest hsome

/-- A transaction and a single write of two connections, and a read of what was committed. -/
def interleavedLines : List (WorldEvent txn) :=
  [.accept 0 1, .accept 1 2, .request 0 ["BEGIN".toList], .reply 0,
    .request 0 ["SET".toList, ['a'], ['1']], .reply 0, .request 1 ["SET".toList, ['b'], ['2']],
    .send 1, .request 0 ["COMMIT".toList], .send 0, .execute Faults.clean 0, .receive 1, .reply 1,
    .execute Faults.clean 0, .receive 0, .reply 0, .request 1 ["GET".toList, ['a']], .send 1,
    .execute Faults.clean 0, .receive 1, .reply 1]

theorem txn_serializable_interleavedLines :
    let world := Run.run World.step (World.boot Disk.empty 8 : World txn) interleavedLines
    let lines := Txn.lines (Run.trace World.step World.executes
      (World.boot Disk.empty 8 : World txn) interleavedLines)
    let initial := (startEngine Disk.empty 8).state
    world.replies.map Served.output = [asBytes "BEGIN\r\n", asBytes "QUEUED\r\n", asBytes "OK\r\n",
        asBytes "COMMIT 1\r\n", asBytes "VALUE 1\r\n1\r\n"]
      ∧ ∀ engine ∈ world.history.engine, engine.state = Txn.outcome initial lines ∧ lines.Nodup
        ∧ ∀ reply ∈ world.replies, ∀ parts, reply.request = some parts →
          (Txn.asks (reply.earlier.foldl Txn.track none) parts).isSome →
            ∃ before after, lines = before ++ ⟨reply.client, reply.earlier, parts⟩ :: after
              ∧ (Txn.IsGet parts → reply.output
                = Txn.getReply (Txn.outcome initial before).map[Txn.key parts]?) :=
  ⟨by decide +kernel, txn_serializable (by decide +kernel) (by decide +kernel)⟩

/-! ### An id that is handed out twice -/

/-- Connections that come and go, with the ids from `id` on. -/
def visits : Nat → UInt32 → List (WorldEvent txn)
  | 0, _ => []
  | count + 1, id => [.accept 1 id, .disconnect 1] ++ visits count (id + 1)

theorem step_visit {world : World txn} (hrunning : world.running = true)
    (hclosed : (world.threads 1).phase = .closed) (id : UInt32) :
    (world.step (.accept 1 id)).step (.disconnect 1)
      = { world with
          nextId := world.nextId + 1
          threads := Function.update world.threads 1
            { client := id, conn := txn.init, phase := .closed } } := by
  have haccept : world.step (.accept 1 id)
      = { world with
          nextId := world.nextId + 1
          threads := Function.update world.threads 1
            { client := id, conn := txn.init, phase := .idle } } := by
    rw [World.step, hrunning, hclosed]
    dsimp only [World.set]
    rw [hrunning]
  rw [haccept]
  simp only [World.step, World.set, Function.update_self, Function.update_idem]

theorem run_visits {world : World txn} (hrunning : world.running = true)
    (hclosed : (world.threads 1).phase = .closed) (count : Nat) {id : UInt32}
    (hid : world.nextId = id) :
    Run.Guarded World.step (World.Lives Txn.numbering) world (visits count id)
      ∧ Run.trace World.step World.executes world (visits count id) = []
      ∧ ∃ thread, thread.phase = .closed
        ∧ Run.run World.step world (visits count id)
          = { world with
              nextId := id + UInt32.ofNat count
              threads := Function.update world.threads 1 thread } := by
  induction count generalizing world id with
  | zero =>
      refine ⟨trivial, rfl, world.threads 1, hclosed, ?_⟩
      have hzero : id + UInt32.ofNat 0 = id := UInt32.add_zero id
      rw [hzero, ← hid, Function.update_eq_self]
      rfl
  | succ count ih =>
      have hstep := step_visit hrunning hclosed id
      have hcount : id + 1 + UInt32.ofNat count = id + UInt32.ofNat (count + 1) := by
        rw [UInt32.ofNat_add, UInt32.add_assoc, UInt32.add_comm (UInt32.ofNat count)]
        rfl
      obtain ⟨hguarded, htrace, thread, hthread, hrun⟩ := @ih { world with
          nextId := world.nextId + 1
          threads := Function.update world.threads 1
            { client := id, conn := txn.init, phase := .closed } } hrunning
        (by simp only [Function.update_self]) (id + 1) (by simp only [hid])
      rw [← hstep] at hguarded htrace hrun
      refine ⟨⟨⟨⟨hrunning, ?_, hid.symm⟩, rfl⟩, ⟨trivial, rfl⟩, hguarded⟩, ?_, thread, hthread, ?_⟩
      · rw [hclosed]
        rfl
      · exact htrace
      · refine hrun.trans ?_
        rw [hstep, hcount]
        simp only [Function.update_idem]

/-- A connection sets the key to a value. -/
def setKey (handle : Nat) (value : Char) : List (WorldEvent txn) :=
  [.accept handle 1, .request handle ["SET".toList, ['k'], [value]], .send handle,
    .execute Faults.clean 0, .receive handle, .reply handle]

/-- Two connections with as many others between them as make their ids the same. -/
def sameId (count : Nat) : List (WorldEvent txn) :=
  setKey 0 'a' ++ (visits count 2 ++ setKey 1 'b')

theorem write_lost_by_sameId {count : Nat} (hcount : 2 + UInt32.ofNat count = 1) :
    let world := Run.run World.step (World.boot Disk.empty 8 : World txn) (sameId count)
    let lines := Txn.lines (Run.trace World.step World.executes
      (World.boot Disk.empty 8 : World txn) (sameId count))
    Run.Guarded World.step (World.Lives Txn.numbering) (World.boot Disk.empty 8 : World txn)
        (sameId count)
      ∧ (world.history.engine.map fun engine => engine.state.map["k"]?) = some (some (asBytes "a"))
      ∧ world.replies.map (fun reply => (reply.request, reply.output))
        = [(some ["SET".toList, ['k'], ['a']], asBytes "OK\r\n"),
          (some ["SET".toList, ['k'], ['b']], asBytes "OK\r\n")]
      ∧ lines = [⟨1, [], ["SET".toList, ['k'], ['a']]⟩] := by
  intro world lines
  obtain ⟨hguarded, htrace, thread, hthread, hrun⟩ :=
    @run_visits (Run.run World.step (World.boot Disk.empty 8) (setKey 0 'a')) rfl rfl count 2
      (by decide +kernel)
  rw [hcount] at hrun
  obtain ⟨client, conn, phase, request, earlier, call, answers, logged⟩ := thread
  obtain rfl : phase = .closed := hthread
  have hworld : world = Run.run World.step (Run.run World.step
      (Run.run World.step (World.boot Disk.empty 8) (setKey 0 'a')) (visits count 2))
      (setKey 1 'b') := by
    simp only [world, sameId, Run.run_append]
  have hfirst : Txn.lines (Run.trace World.step World.executes (World.boot Disk.empty 8)
      (setKey 0 'a')) = [⟨1, [], ["SET".toList, ['k'], ['a']]⟩] := rfl
  have hlines : lines = [⟨1, [], ["SET".toList, ['k'], ['a']]⟩]
      ++ Txn.lines (Run.trace World.step World.executes (Run.run World.step
        (Run.run World.step (World.boot Disk.empty 8) (setKey 0 'a')) (visits count 2))
        (setKey 1 'b')) := by
    simp only [lines, sameId, Run.trace_append, Txn.lines_append, htrace, hfirst]
    rfl
  rw [hrun] at hworld hlines
  refine ⟨?_, ?_, ?_, ?_⟩
  · rw [sameId, Run.guarded_append, Run.guarded_append, hrun]
    exact ⟨by decide +kernel, hguarded, ⟨⟨rfl, rfl, rfl⟩, rfl⟩, ⟨rfl, rfl⟩, ⟨trivial, rfl⟩,
      ⟨trivial, rfl⟩, ⟨trivial, rfl⟩, ⟨trivial, rfl⟩, trivial⟩
  · rw [hworld]
    rfl
  · rw [hworld]
    rfl
  · rw [hlines]
    rfl

/-- After `2^32` connections the ids start again: a write of the second connection with id 1 is
answered with `OK` and never executed. -/
theorem write_lost_by_reused_id :
    let world := Run.run World.step (World.boot Disk.empty 8 : World txn) (sameId (2 ^ 32 - 1))
    let lines := Txn.lines (Run.trace World.step World.executes
      (World.boot Disk.empty 8 : World txn) (sameId (2 ^ 32 - 1)))
    Run.Guarded World.step (World.Lives Txn.numbering) (World.boot Disk.empty 8 : World txn)
        (sameId (2 ^ 32 - 1))
      ∧ (world.history.engine.map fun engine => engine.state.map["k"]?) = some (some (asBytes "a"))
      ∧ world.replies.map (fun reply => (reply.request, reply.output))
        = [(some ["SET".toList, ['k'], ['a']], asBytes "OK\r\n"),
          (some ["SET".toList, ['k'], ['b']], asBytes "OK\r\n")]
      ∧ lines = [⟨1, [], ["SET".toList, ['k'], ['a']]⟩] :=
  write_lost_by_sameId (by decide)

end OneBarrier
