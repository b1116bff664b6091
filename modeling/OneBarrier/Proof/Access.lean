import OneBarrier.Proof.Rest

/-!
# One request against the executor

A request of the RESP or the Memcached front-end that names a key, served by an executor with no
other call in between. Its ops are all on that key, so the store is left as it was at every other.
-/

namespace OneBarrier

open Wire Input Utf8 Text Durable Rest

/-! ### Conversations -/

namespace Conv

variable {α β σ : Type} {answer : σ → Op → σ × Option Output} {count : σ → Option Nat}

/-- The state the service is left in, and the result. -/
def run (answer : σ → Op → σ × Option Output) (count : σ → Option Nat) : Conv α → σ → σ × α
  | ret value, state => (state, value)
  | apply op next, state =>
      (next (answer state op).2).run answer count (answer state op).1
  | len next, state => (next (count state)).run answer count state

theorem run_bind (conv : Conv α) (next : α → Conv β) (state : σ) :
    (conv.bind next).run answer count state
      = (next (conv.run answer count state).2).run answer count (conv.run answer count state).1 := by
  induction conv generalizing state with
  | ret value => rfl
  | apply op after ih => exact ih _ _
  | len after ih => exact ih _ _

theorem run_applied (op : Op) (next : Option Output → Conv β) (state : σ) :
    (applied op >>= next).run answer count state
      = (next (answer state op).2).run answer count (answer state op).1 := rfl

end Conv

/-- The op is about this key and no other. -/
def OpKind.On (key : String) : OpKind → Prop
  | .set other _ | .incr other _ | .del other | .get other => other = key
  | .txn _ => False

/-- Every op of the conversation is the client's, and on this key. -/
def Conv.On {α : Type} (client : UInt32) (key : String) : Conv α → Prop
  | ret _ => True
  | apply op next => (op.client = client ∧ op.kind.On key) ∧ ∀ answer, (next answer).On client key
  | len next => ∀ count, (next count).On client key

theorem Conv.on_ite {α : Type} {client : UInt32} {key : String} {condition : Prop} [Decidable condition]
    {first second : Conv α} (hfirst : condition → first.On client key)
    (hsecond : ¬ condition → second.On client key) :
    (if condition then first else second).On client key := by
  split
  · exact hfirst ‹_›
  · exact hsecond ‹_›

theorem Conv.On.bind {α β : Type} {client : UInt32} {key : String} {conv : Conv α}
    {next : α → Conv β} (hconv : conv.On client key) (hnext : ∀ value, (next value).On client key) :
    (conv.bind next).On client key := by
  induction conv with
  | ret value => exact hnext value
  | apply op after ih => exact ⟨hconv.1, fun answer => ih answer (hconv.2 answer)⟩
  | len after ih => exact fun count => ih count (hconv count)

/-! ### One call -/

namespace Rest.Executor

variable (tick : UInt64 → UInt64) (executor : Executor) (op : Op)

/-- The state of a call: taken if its seq is new, and left alone otherwise. -/
theorem state_apply : (executor.apply tick op).1.engine.state
    = if executor.engine.highWater op.client < op.seq then (executor.engine.state.apply op).1
      else executor.engine.state := by
  split
  · exact (apply_fresh tick ‹_›).2.1
  · rw [Executor.apply, deliver_of_not_fresh ‹_›]

theorem answer_apply : (executor.apply tick op).2
    = some (if executor.engine.highWater op.client < op.seq then (executor.engine.state.apply op).2
      else .suppressed) := by
  split
  · exact (apply_fresh tick ‹_›).1
  · rw [Executor.apply, deliver_of_not_fresh ‹_›]

theorem highWater_apply (client : UInt32) : (executor.apply tick op).1.engine.highWater client
    = if executor.engine.highWater op.client < op.seq ∧ op.client = client then op.seq
      else executor.engine.highWater client := by
  by_cases hfresh : executor.engine.highWater op.client < op.seq
  · obtain ⟨next, after, hdeliver, hcore⟩ := @deliver_clean_of_fresh executor.engine executor.disk
      (max (executor.clock + 1) (tick (executor.clock + 1))) op hfresh
    have happly : (executor.apply tick op).1.engine = next := by rw [Executor.apply, hdeliver]
    rw [happly, hcore]
    refine (Core.highWater_applyDedup client hfresh).trans ?_
    simp only [hfresh, true_and]
  · rw [Executor.apply, deliver_of_not_fresh hfresh, if_neg fun hboth => hfresh hboth.1]

/-- The executor after a list of calls. -/
def applyAll (ops : List Op) : Executor := ops.foldl (fun executor op => (executor.apply tick op).1) executor

end Rest.Executor

/-! ### What one key's ops leave alone -/

/-- Two stores that differ at one key at most. -/
def AgreeOff (key : String) (first second : KvStore) : Prop :=
  ∀ other ≠ key, view first other = view second other

theorem AgreeOff.update {key : String} {first second : KvStore} (hagree : AgreeOff key first second)
    (written : String) (value : Option Bytes) (other : String) (hother : other ≠ key) :
    Function.update (view first) written value other
      = Function.update (view second) written value other := by
  by_cases hsame : other = written
  · rw [hsame, Function.update_self, Function.update_self]
  · rw [Function.update_of_ne hsame, Function.update_of_ne hsame]
    exact hagree other hother

theorem AgreeOff.writes {key : String} {first second : BTreeMap String Bytes}
    (hagree : AgreeOff key ⟨first⟩ ⟨second⟩) (writes : List (String × Option Bytes)) :
    AgreeOff key ⟨writes.foldl KvStore.write first⟩ ⟨writes.foldl KvStore.write second⟩ := by
  induction writes generalizing first second with
  | nil => exact hagree
  | cons entry writes ih =>
      obtain ⟨written, value⟩ := entry
      refine ih fun other hother => ?_
      have hupdate := hagree.update written value other hother
      cases value with
      | none =>
          rwa [← view_erase, ← view_erase] at hupdate
      | some value =>
          rwa [← view_insert, ← view_insert] at hupdate

/-- An op does the same to both stores, apart from that key. -/
theorem AgreeOff.apply {key : String} {first second : KvStore} (hagree : AgreeOff key first second)
    (op : Op) : AgreeOff key (first.apply op).1 (second.apply op).1 := by
  obtain ⟨client, seq, kind⟩ := op
  intro other hother
  cases kind with
  | set written value =>
      calc view ⟨first.map.insert written value⟩ other
          = Function.update (view first) written (some value) other := by rw [view_insert]
        _ = Function.update (view second) written (some value) other :=
            hagree.update written (some value) other hother
        _ = view ⟨second.map.insert written value⟩ other := by rw [view_insert]
  | incr written delta =>
      simp only [KvStore.apply, view_insert]
      by_cases hwritten : written = key
      · rw [hwritten, Function.update_of_ne hother, Function.update_of_ne hother]
        exact hagree other hother
      · have hsame : first.getInt written = second.getInt written :=
          congrArg (Option.bind · KvStore.asInt) (hagree written hwritten)
        rw [hsame]
        exact hagree.update written _ other hother
  | del written =>
      calc view ⟨first.map.erase written⟩ other
          = Function.update (view first) written none other := by rw [view_erase]
        _ = Function.update (view second) written none other :=
            hagree.update written none other hother
        _ = view ⟨second.map.erase written⟩ other := by rw [view_erase]
  | get written => exact hagree other hother
  | txn writes => exact hagree.writes writes other hother

theorem agreeOff_apply_of_on {key : String} {store : KvStore} {op : Op} (hon : op.kind.On key) :
    AgreeOff key (store.apply op).1 store := by
  obtain ⟨client, seq, kind⟩ := op
  intro other hother
  cases kind with
  | set written value =>
      obtain rfl : written = key := hon
      exact (congrFun (view_insert store _ value) other).trans (Function.update_of_ne hother _ _)
  | incr written delta =>
      obtain rfl : written = key := hon
      exact (congrFun (view_insert store _ _) other).trans (Function.update_of_ne hother _ _)
  | del written =>
      obtain rfl : written = key := hon
      exact (congrFun (view_erase store _) other).trans (Function.update_of_ne hother _ _)
  | get written => rfl
  | txn writes => exact hon.elim

/-- Two executors that differ at one key and in one client's mark at most. -/
structure Apart (client : UInt32) (key : String) (first second : Executor) : Prop where
  store : AgreeOff key first.engine.state second.engine.state
  marks : ∀ other ≠ client, first.engine.highWater other = second.engine.highWater other

namespace Apart

variable {client : UInt32} {key : String} {first second third : Executor} {tick : UInt64 → UInt64}

theorem trans (hfirst : Apart client key first second) (hsecond : Apart client key second third) :
    Apart client key first third where
  store other hother := (hfirst.store other hother).trans (hsecond.store other hother)
  marks other hother := (hfirst.marks other hother).trans (hsecond.marks other hother)

/-- A call of another client keeps them so. -/
theorem apply (hapart : Apart client key first second) {op : Op} (hclient : op.client ≠ client) :
    Apart client key (first.apply tick op).1 (second.apply tick op).1 where
  store := by
    rw [Executor.state_apply, Executor.state_apply, hapart.marks op.client hclient]
    split
    · exact hapart.store.apply op
    · exact hapart.store
  marks other hother := by
    rw [Executor.highWater_apply, Executor.highWater_apply, hapart.marks op.client hclient,
      hapart.marks other hother]

theorem applyAll (hapart : Apart client key first second) {ops : List Op}
    (hclients : ∀ op ∈ ops, op.client ≠ client) :
    Apart client key (first.applyAll tick ops) (second.applyAll tick ops) := by
  induction ops generalizing first second with
  | nil => exact hapart
  | cons op ops ih =>
      obtain ⟨hclient, hclients⟩ := List.forall_mem_cons.mp hclients
      exact ih (hapart.apply hclient) hclients

/-- A call of the client on the key makes them no more different. -/
theorem of_on {op : Op} (hclient : op.client = client) (hon : op.kind.On key) :
    Apart client key (first.apply tick op).1 first where
  store := by
    rw [Executor.state_apply]
    split
    · exact agreeOff_apply_of_on hon
    · exact fun _ _ => rfl
  marks other hother := by
    rw [Executor.highWater_apply, if_neg]
    rintro ⟨-, hsame⟩
    exact hother (hsame.symm.trans hclient)

/-- **The frame of a conversation.** -/
theorem of_conversation {α : Type} {conv : Conv α} (hconv : conv.On client key) (executor : Executor) :
    Apart client key (conv.run (Executor.apply tick) Executor.len executor).1 executor := by
  induction conv generalizing executor with
  | ret value => exact ⟨fun _ _ => rfl, fun _ _ => rfl⟩
  | apply op next ih => exact (ih _ (hconv.2 _) _).trans (of_on hconv.1.1 hconv.1.2)
  | len next ih => exact ih _ (hconv _) _

end Apart

/-! ### Requests -/

namespace Resp

theorem serve_of_not_quit {args : List Bytes} (hquit : name args ≠ asBytes "QUIT") (client : UInt32)
    (seq : UInt64) :
    serve client seq args = (dispatch args client (seq + 1)).bind fun reply =>
      .ret { conn := seq + 1, output := reply.toBytes } := if_neg hquit

theorem dispatch_on {args : List Bytes} (hdel : name args = asBytes "DEL" → args.length = 2)
    (client : UInt32) (seq : UInt64) :
    (dispatch args client seq).On client (fromUtf8Lossy (args.getD 1 [])) := by
  rw [dispatch]
  refine Conv.on_ite (fun _ => ?ping) fun _ => Conv.on_ite (fun _ => ?set) fun _ =>
    Conv.on_ite (fun _ => ?get) fun _ => Conv.on_ite (fun _ => ?incr) fun _ =>
      Conv.on_ite (fun hname => ?del) fun _ => ?rest
  case ping => split <;> exact trivial
  case set =>
    refine ⟨⟨rfl, rfl⟩, fun answer => ?_⟩
    cases answer <;> exact trivial
  case get =>
    refine ⟨⟨rfl, rfl⟩, fun answer => ?_⟩
    rcases answer with _ | _ | _ | _ | _ <;> exact trivial
  case incr =>
    split
    · exact trivial
    · refine ⟨⟨rfl, rfl⟩, fun answer => ?_⟩
      rcases answer with _ | _ | (_ | _) | _ | _ <;> exact trivial
  case del =>
    obtain ⟨word, key, rfl⟩ := List.length_eq_two.mp (hdel hname.1)
    refine ⟨⟨rfl, rfl⟩, fun answer => ?_⟩
    rcases answer with _ | _ | (_ | _) | _ | _ <;> exact trivial
  case rest =>
    refine Conv.on_ite (fun _ => fun _ => trivial) fun _ => Conv.on_ite (fun _ => trivial) fun _ =>
      Conv.on_ite (fun _ => trivial) fun _ => Conv.on_ite (fun _ => trivial) fun _ =>
        Conv.on_ite (fun _ => trivial) fun _ => trivial

theorem dispatch_get {args : List Bytes} (hname : name args = asBytes "GET")
    (hlong : 2 ≤ args.length) (client : UInt32) (seq : UInt64) :
    dispatch args client seq
      = .apply ⟨client, seq, .get (fromUtf8Lossy (args.getD 1 []))⟩ fun out =>
          match out with
          | some (.bytes value) => .ret (.bulk value)
          | _ => .ret (.bulk none) := by
  have hword : (args.headD []).map asciiUpper = asBytes "GET" := hname
  rw [dispatch]
  rw [hword, if_neg (by decide), if_neg fun hboth => absurd hboth.1 (by decide), if_pos ⟨rfl, hlong⟩]
  rfl

theorem serve_on {args : List Bytes} (hdel : name args = asBytes "DEL" → args.length = 2)
    (client : UInt32) (seq : UInt64) :
    (serve client seq args).On client (fromUtf8Lossy (args.getD 1 [])) :=
  Conv.on_ite (fun _ => trivial) fun _ => (dispatch_on hdel client (seq + 1)).bind fun _ => trivial

end Resp

namespace Memcache

theorem serve_get {command : Command}
    (hname : name command.parts = asBytes "get" ∨ name command.parts = asBytes "gets")
    (client : UInt32) (seq : UInt64) :
    serve client seq command = (getAll client seq command.parts.tail).bind fun result =>
      .ret { conn := result.1, output := result.2 ++ asBytes "END\r\n" } := by
  have hstorage : ¬ isStorage command.parts = true := by
    rw [isStorage]
    obtain hname | hname := hname <;> rw [hname] <;> decide
  rw [serve]
  dsimp only
  rw [if_neg hstorage, if_pos hname]
  rfl

theorem serve_on {command : Command}
    (hget : name command.parts ≠ asBytes "get" ∧ name command.parts ≠ asBytes "gets")
    (client : UInt32) (seq : UInt64) :
    (serve client seq command).On client (fromUtf8Lossy (command.parts.getD 1 [])) := by
  rw [serve]
  refine Conv.on_ite (fun _ => Conv.on_ite (fun _ => trivial) fun _ => ?store) fun _ =>
    Conv.on_ite (fun hname => ?get) fun _ => Conv.on_ite (fun _ => ?incr) fun _ =>
      Conv.on_ite (fun _ => ?delete) fun _ => ?rest
  case store => exact ⟨⟨rfl, rfl⟩, fun _ => trivial⟩
  case get => exact absurd hname (not_or.mpr hget)
  case incr =>
    refine ⟨⟨rfl, rfl⟩, fun answer => ?_⟩
    rcases answer with _ | _ | _ | (_ | _) | _
    case some.bytes.some value =>
      refine ⟨⟨rfl, rfl⟩, fun answer => ?_⟩
      rcases answer with _ | _ | (_ | _) | _ | _ <;> exact trivial
    all_goals exact trivial
  case delete =>
    refine @Conv.On.bind _ _ _ _ (Conv.applied _) _ ⟨⟨rfl, rfl⟩, fun _ => trivial⟩ fun answer => ?_
    split <;> exact trivial
  case rest =>
    exact Conv.on_ite (fun _ => trivial) fun _ => Conv.on_ite (fun _ => trivial) fun _ => trivial

end Memcache

/-- A request of the RESP or of the Memcached front-end. -/
inductive Access where
  | resp (args : List Bytes)
  | memcache (command : Memcache.Command)
  deriving DecidableEq

namespace Access

def app : Access → App
  | resp _ => .resp
  | memcache _ => .memcache

def serve (client : UInt32) (seq : UInt64) : Access → Conv (Turn UInt64)
  | resp args => Resp.serve client seq args
  | memcache command => Memcache.serve client seq command

/-- A write on one key, as the bytes of the request have it. -/
def Writes (key : Bytes) : Access → Prop
  | resp args => Resp.writes args = true ∧ args.getD 1 [] = key
      ∧ (Resp.name args = asBytes "DEL" → args.length = 2)
  | memcache command => Memcache.writes command = true ∧ command.parts.getD 1 [] = key

/-- A `GET` of one key. -/
def Reads (key : Bytes) : Access → Prop
  | resp args => Resp.name args = asBytes "GET" ∧ 2 ≤ args.length ∧ args.getD 1 [] = key
  | memcache command => (Memcache.name command.parts = asBytes "get"
      ∨ Memcache.name command.parts = asBytes "gets") ∧ command.parts.tail = [key]

variable {tick : UInt64 → UInt64}

theorem serve_on {access : Access} {key : Bytes} (hwrites : access.Writes key) (client : UInt32)
    (seq : UInt64) : (access.serve client seq).On client (fromUtf8Lossy key) := by
  cases access with
  | resp args =>
      obtain ⟨-, rfl, hdel⟩ := hwrites
      exact Resp.serve_on hdel client seq
  | memcache command =>
      obtain ⟨hwrites, rfl⟩ := hwrites
      obtain ⟨parts, data⟩ := command
      refine Memcache.serve_on ⟨fun hname => ?_, fun hname => ?_⟩ client seq
      all_goals
        refine absurd hwrites (Memcache.writes_eq_false ?_ ?_ ?_)
        · rw [Memcache.isStorage, hname]
          exact fun hboth => absurd hboth.1 (by decide)
        · rw [hname]
          exact fun hboth => absurd hboth.1 (by decide)
        · rw [hname]
          exact fun hboth => absurd hboth.1 (by decide)

/-- What a `GET` is answered with, for a value or none. -/
def shown (key : Bytes) (value : Option Bytes) : Access → Bytes
  | resp _ => (Resp.Reply.bulk value).toBytes
  | memcache _ =>
      match value with
      | some value => asBytes ("VALUE " ++ fromUtf8Lossy key ++ " 0 " ++ toString value.length ++ "\r\n")
          ++ value ++ asBytes "\r\n" ++ asBytes "END\r\n"
      | none => asBytes "END\r\n"

theorem output_of_reads {access : Access} {key : Bytes} (hreads : access.Reads key) {client : UInt32}
    {seq : UInt64} {executor : Executor} (hfresh : executor.engine.highWater client < seq + 1) :
    ((access.serve client seq).run (Executor.apply tick) Executor.len executor).2.output
      = access.shown key (view executor.engine.state (fromUtf8Lossy key)) := by
  have hanswer : (executor.apply tick ⟨client, seq + 1, .get (fromUtf8Lossy key)⟩).2
      = some (.bytes (view executor.engine.state (fromUtf8Lossy key))) := by
    rw [Executor.answer_apply, if_pos hfresh]
    rfl
  cases access with
  | resp args =>
      obtain ⟨hname, hlong, rfl⟩ := hreads
      rw [serve, Resp.serve_of_not_quit (by rw [hname]; decide), Resp.dispatch_get hname hlong,
        Conv.run_bind]
      simp only [Conv.run, hanswer]
      rfl
  | memcache command =>
      obtain ⟨hname, htail⟩ := hreads
      rw [serve, Memcache.serve_get hname, htail, Conv.run_bind]
      rw [Memcache.getAll, Conv.run_applied, hanswer]
      cases view executor.engine.state (fromUtf8Lossy key) with
      | none => rfl
      | some value => exact congrArg (· ++ asBytes "END\r\n") (List.append_nil _)

end Access

/-! ### Distinct keys -/

/-- Whatever is written on the first key, a later `GET` of the second is answered the same as without
it. Between the two come any ops of other clients. -/
def Separate (app : App) (first second : Bytes) : Prop :=
  ∀ write read : Access, write.app = app → read.app = app → write.Writes first → read.Reads second →
    ∀ (tick : UInt64 → UInt64) (executor : Executor) (client reader : UInt32) (seq number : UInt64)
      (others : List Op), (∀ op ∈ others, op.client ≠ client) →
    let without := executor.applyAll tick others
    let written := ((write.serve client seq).run (Executor.apply tick) Executor.len executor).1.applyAll
      tick others
    without.engine.highWater reader < number + 1 → written.engine.highWater reader < number + 1 →
      ((read.serve reader number).run (Executor.apply tick) Executor.len written).2.output
        = ((read.serve reader number).run (Executor.apply tick) Executor.len without).2.output

/-- A store of one byte under the key. -/
def Access.store (app : App) (key : Bytes) : Access :=
  if app = .resp then .resp [asBytes "SET", key, [120]]
  else .memcache ⟨[asBytes "set", key, [48], [48], [49]], [120]⟩

def Access.load (app : App) (key : Bytes) : Access :=
  if app = .resp then .resp [asBytes "GET", key] else .memcache ⟨[asBytes "get", key], []⟩

theorem Access.shown_load_ne (app : App) (key : Bytes) :
    (Access.load app key).shown key (some [120]) ≠ (Access.load app key).shown key none := by
  rw [Access.load]
  split
  · change (Resp.Reply.bulk (some [120])).toBytes ≠ (Resp.Reply.bulk none).toBytes
    decide
  · intro hsame
    have hhead := congrArg List.head? hsame
    simp only [shown, asBytes_append, List.append_assoc] at hhead
    exact absurd (show (some 86 : Option UInt8) = some 69 from hhead) (by decide)

theorem Access.view_store {app : App} (key : Bytes) {client : UInt32} {seq : UInt64}
    {tick : UInt64 → UInt64} {executor : Executor}
    (hfresh : executor.engine.highWater client < seq + 1) :
    view (((Access.store app key).serve client seq).run (Executor.apply tick) Executor.len
      executor).1.engine.state (fromUtf8Lossy key) = some [120] := by
  have hstate : (((Access.store app key).serve client seq).run (Executor.apply tick) Executor.len
      executor).1 = (executor.apply tick ⟨client, seq + 1, .set (fromUtf8Lossy key) [120]⟩).1 := by
    rw [Access.store]
    split
    · have hquit : Resp.name [asBytes "SET", key, [120]] ≠ asBytes "QUIT" := by
        change (asBytes "SET").map asciiUpper ≠ asBytes "QUIT"
        decide
      obtain ⟨next, hnext, hdispatch⟩ : ∃ next, (∀ out, ∃ reply, next out = Conv.ret reply) ∧
          Resp.dispatch [asBytes "SET", key, [120]] client (seq + 1)
            = .apply ⟨client, seq + 1, .set (fromUtf8Lossy key) [120]⟩ next := by
        refine ⟨_, ?_, rfl⟩
        rintro (_ | out) <;> exact ⟨_, rfl⟩
      obtain ⟨reply, hreply⟩ :=
        hnext (executor.apply tick ⟨client, seq + 1, .set (fromUtf8Lossy key) [120]⟩).2
      rw [Access.serve, Resp.serve_of_not_quit hquit, Conv.run_bind, hdispatch]
      simp only [Conv.run, hreply]
    · rfl
  rw [hstate, Executor.state_apply, if_pos hfresh]
  refine (congrFun (view_insert executor.engine.state _ _) _).trans ?_
  exact Function.update_self _ _ _

/-- **Two keys are kept apart exactly if they differ once invalid UTF-8 has been replaced.** -/
theorem separate_iff {app : App} (happ : app = .resp ∨ app = .memcache) (first second : Bytes) :
    Separate app first second ↔ fromUtf8Lossy first ≠ fromUtf8Lossy second := by
  constructor
  · intro hseparate hsame
    have hwrites : (Access.store app first).app = app ∧ (Access.store app first).Writes first := by
      obtain rfl | rfl := happ
      · refine ⟨rfl, rfl, rfl, fun hname => absurd hname ?_⟩
        change (asBytes "SET").map asciiUpper ≠ asBytes "DEL"
        decide
      · exact ⟨rfl, rfl, rfl⟩
    have hreads : (Access.load app second).app = app ∧ (Access.load app second).Reads second := by
      obtain rfl | rfl := happ
      · exact ⟨rfl, rfl, Nat.le_refl 2, rfl⟩
      · exact ⟨rfl, .inl rfl, rfl⟩
    have hapart := @Apart.of_conversation 1 (fromUtf8Lossy first) id _ _
      (Access.serve_on hwrites.2 1 0) fresh
    have hfresh : (((Access.store app first).serve 1 0).run (Executor.apply id) Executor.len
        fresh).1.engine.highWater 2 < 0 + 1 := by
      rw [hapart.marks 2 (by decide)]
      decide
    have hgot := hseparate _ _ hwrites.1 hreads.1 hwrites.2 hreads.2 id fresh 1 2 0 0 []
      (fun _ hmem => by cases hmem) (by decide) hfresh
    have hnone : view fresh.engine.state (fromUtf8Lossy second) = none :=
      Std.ExtTreeMap.getElem?_empty
    rw [Executor.applyAll, Executor.applyAll, List.foldl_nil, List.foldl_nil,
      Access.output_of_reads hreads.2 hfresh, Access.output_of_reads hreads.2 (by decide), hnone, ← hsame,
      Access.view_store first (by decide)] at hgot
    exact Access.shown_load_ne app second hgot
  · intro hne write read _ _ hwrites hreads tick executor client reader seq number others hothers
      without written hwithout hwritten
    have hapart : Apart client (fromUtf8Lossy first) written without :=
      (Apart.of_conversation (Access.serve_on hwrites client seq) executor).applyAll hothers
    rw [Access.output_of_reads hreads hwritten, Access.output_of_reads hreads hwithout,
      hapart.store _ hne.symm]

theorem separate_plain :
    Separate .resp (asBytes "foo") (asBytes "bar")
      ↔ fromUtf8Lossy (asBytes "foo") ≠ fromUtf8Lossy (asBytes "bar") :=
  separate_iff (.inl rfl) _ _

/-- Two bytes that start no character are one key: what is stored under `FF` is read under `FE`. -/
theorem invalid_keys_meet : ([255] : Bytes) ≠ [254] ∧ ¬ Separate .resp [255] [254] := by
  refine ⟨by decide, fun hseparate => ?_⟩
  have hgot := hseparate (.resp [asBytes "SET", [255], [120]]) (.resp [asBytes "GET", [254]]) rfl rfl
    ⟨rfl, rfl, by decide⟩ ⟨rfl, Nat.le_refl 2, rfl⟩ id fresh 1 2 0 0 [] (fun _ hmem => by cases hmem)
    (by decide) (by decide)
  exact absurd hgot (by decide +kernel)

end OneBarrier
