import OneBarrier.App
import OneBarrier.Proof.Threads

/-!
# Output commit

A success reply to a write request means that every op of the request is in the log. What has to be
shown of a front-end is a property of its conversation with the service alone: whenever an answer
is missing, or is that of a duplicate, no success reply can follow. The front-ends that drop an
answer owe their success replies to the executor being there and taking the op.
-/

namespace OneBarrier

open Wire Utf8

namespace Conv

variable {α β : Type}

/-- No way through the conversation ends in success. -/
def Fails (success : α → Prop) : Conv α → Prop
  | ret value => ¬ success value
  | apply _ next => ∀ answer, (next answer).Fails success
  | len next => ∀ count, (next count).Fails success

/-- Success needs every op to be taken: without an answer, or with that of a duplicate, it is out
of reach. -/
def Trusts (mayFail maySuppress : Op → Prop) (success : α → Prop) : Conv α → Prop
  | ret _ => True
  | apply op next =>
      (∀ answer, (next answer).Trusts mayFail maySuppress success)
        ∧ (mayFail op → (next none).Fails success)
        ∧ (maySuppress op → (next (some .suppressed)).Fails success)
  | len next => ∀ count, (next count).Trusts mayFail maySuppress success

variable {success : α → Prop} {mayFail maySuppress : Op → Prop}

theorem fails_of_never (hnever : ∀ value, ¬ success value) (conv : Conv α) : conv.Fails success := by
  induction conv with
  | ret value => exact hnever value
  | apply op next ih => exact fun answer => ih answer
  | len next ih => exact fun count => ih count

theorem Fails.trusts {conv : Conv α} (hfails : conv.Fails success) :
    conv.Trusts mayFail maySuppress success := by
  induction conv with
  | ret value => trivial
  | apply op next ih =>
      exact ⟨fun answer => ih answer (hfails answer), fun _ => hfails none, fun _ => hfails _⟩
  | len next ih => exact fun count => ih count (hfails count)

theorem Fails.bind_ret {conv : Conv β} {value : β → α}
    (hfails : conv.Fails fun result => success (value result)) :
    (conv.bind fun result => ret (value result)).Fails success := by
  induction conv with
  | ret result => exact hfails
  | apply op next ih => exact fun answer => ih answer (hfails answer)
  | len next ih => exact fun count => ih count (hfails count)

theorem Trusts.bind_ret {conv : Conv β} {value : β → α}
    (htrusts : conv.Trusts mayFail maySuppress fun result => success (value result)) :
    (conv.bind fun result => ret (value result)).Trusts mayFail maySuppress success := by
  induction conv with
  | ret result => trivial
  | apply op next ih =>
      exact ⟨fun answer => ih answer (htrusts.1 answer), fun hfail => (htrusts.2.1 hfail).bind_ret,
        fun hsuppress => (htrusts.2.2 hsuppress).bind_ret⟩
  | len next ih => exact fun count => ih count (htrusts count)

theorem Trusts.ite {condition : Prop} [Decidable condition] {first second : Conv α}
    (hfirst : condition → first.Trusts mayFail maySuppress success)
    (hsecond : ¬ condition → second.Trusts mayFail maySuppress success) :
    (if condition then first else second).Trusts mayFail maySuppress success := by
  split
  · exact hfirst ‹_›
  · exact hsecond ‹_›

end Conv

/-! ### From conversations to runs -/

section Runs

variable {frontend : Frontend} {mayFail maySuppress : Op → Prop}
  {success : frontend.Request → Bytes → Bool}

/-- The turn is a success reply to the request being served. -/
def Thread.Succeeds (success : frontend.Request → Bytes → Bool) (thread : Thread frontend)
    (turn : Turn frontend.Conn) : Prop :=
  ∃ request, thread.request = some request ∧ success request turn.output = true

def Thread.AllLogged (thread : Thread frontend) : Prop :=
  ∀ answer ∈ thread.answers, answer.1 ∈ thread.logged

theorem Thread.AllLogged.concat {thread : Thread frontend} (hall : thread.AllLogged) {op : Op}
    (hlogged : op ∈ thread.logged) (answer : Option Output) :
    ∀ entry ∈ thread.answers ++ [(op, answer)], entry.1 ∈ thread.logged := by
  intro entry hentry
  rcases List.mem_append.mp hentry with hold | hnew
  · exact hall entry hold
  · rw [List.mem_singleton.mp hnew]
    exact hlogged

/-- Every answered op is logged and success needs the rest, or success is out of reach. -/
def Thread.Ahead (mayFail maySuppress : Op → Prop) (success : frontend.Request → Bytes → Bool)
    (thread : Thread frontend) (conv : Conv (Turn frontend.Conn)) : Prop :=
  (thread.AllLogged ∧ conv.Trusts mayFail maySuppress (thread.Succeeds success))
    ∨ conv.Fails (thread.Succeeds success)

def Thread.Commits (mayFail maySuppress : Op → Prop)
    (success : frontend.Request → Bytes → Bool) (thread : Thread frontend) : Prop :=
  match thread.phase with
  | .closed | .idle => True
  | .serving conv => thread.Ahead mayFail maySuppress success conv
  | .applying op next none => thread.Ahead mayFail maySuppress success (.apply op next)
  | .applying op next (some out) =>
      (thread.AllLogged ∧ op ∈ thread.logged
          ∧ (next (some out)).Trusts mayFail maySuppress (thread.Succeeds success))
        ∨ (next (some out)).Fails (thread.Succeeds success)
  | .counting next _ => thread.Ahead mayFail maySuppress success (.len next)

theorem Thread.Move.commits
    (hserve : ∀ client conn request, (frontend.serve client conn request).Trusts mayFail maySuppress
      fun turn => success request turn.output = true)
    {thread next : Thread frontend} (hmove : Thread.Move mayFail maySuppress thread next)
    (hcommits : thread.Commits mayFail maySuppress success) :
    next.Commits mayFail maySuppress success := by
  cases hmove with
  | accept client => trivial
  | close => trivial
  | request request hphase =>
      refine .inl ⟨by simp [Thread.AllLogged], ?_⟩
      convert hserve thread.client thread.conn request using 1
      funext turn
      simp [Thread.Succeeds]
  | call call hphase =>
      rw [Thread.Commits, hphase] at hcommits
      exact hcommits
  | count call hphase =>
      rw [Thread.Commits, hphase] at hcommits
      exact hcommits
  | @fail op after hphase hfail =>
      have hahead : thread.Ahead mayFail maySuppress success (.apply op after) := by
        rcases hphase with hphase | hphase
        · rw [Thread.Commits, hphase] at hcommits
          exact hcommits
        · rw [Thread.Commits, hphase] at hcommits
          exact hcommits
      rcases hahead with ⟨hall, htrusts⟩ | hfails
      · rcases hfail with hfail | hlogged
        · exact .inr (htrusts.2.1 hfail)
        · exact .inl ⟨hall.concat hlogged none, htrusts.1 none⟩
      · exact .inr (hfails none)
  | log hphase =>
      rw [Thread.Commits, hphase] at hcommits
      rw [Thread.Commits, hphase]
      rcases hcommits with ⟨hlogged, htrusts⟩ | hfails
      · exact .inl ⟨fun answer hanswer => List.mem_append_left _ (hlogged answer hanswer), htrusts⟩
      · exact .inr hfails
  | answer out hphase hlogged hout =>
      rw [Thread.Commits, hphase] at hcommits
      rcases hcommits with ⟨hall, htrusts⟩ | hfails
      · exact .inl ⟨hall, hlogged, htrusts.1 (some out)⟩
      · exact .inr (hfails _)
  | suppress hphase hsuppress =>
      rw [Thread.Commits, hphase] at hcommits
      rcases hcommits with ⟨-, htrusts⟩ | hfails
      · exact .inr (htrusts.2.2 hsuppress)
      · exact .inr (hfails _)
  | answerLen count hphase =>
      rw [Thread.Commits, hphase] at hcommits
      exact hcommits
  | receive hphase =>
      rw [Thread.Commits, hphase] at hcommits
      rcases hcommits with ⟨hall, hlogged, htrusts⟩ | hfails
      · exact .inl ⟨hall.concat hlogged _, htrusts⟩
      · exact .inr hfails
  | @receiveLen after count hphase =>
      have hahead : thread.Ahead mayFail maySuppress success (.len after) := by
        rcases hphase with hphase | ⟨answer, hphase⟩
        · rw [Thread.Commits, hphase] at hcommits
          exact hcommits
        · rw [Thread.Commits, hphase] at hcommits
          exact hcommits
      rcases hahead with ⟨hall, htrusts⟩ | hfails
      · exact .inl ⟨hall, htrusts count⟩
      · exact .inr (hfails count)
  | @reply turn hphase =>
      rw [Thread.Commits]
      cases turn.close <;> trivial

/-- Ops that may go unanswered, or be taken for duplicates, are those the front-end looks out for;
then a success reply stands behind logged ops only. -/
theorem World.success_logged
    (hserve : ∀ client conn request, (frontend.serve client conn request).Trusts mayFail maySuppress
      fun turn => success request turn.output = true)
    {interval : UInt64} {events : List (WorldEvent frontend)}
    (hattends : Run.Guarded World.step (World.Attends mayFail maySuppress) (World.start interval)
      events) :
    ∀ served ∈ (Run.run World.step (World.start interval : World frontend) events).replies,
      ∀ request, served.request = some request → success request served.output = true →
        ∀ answer ∈ served.answers, answer.1 ∈ served.logged := by
  refine World.invariant_threads (fun thread hclosed => ?_)
    (fun thread next hmove => hmove.commits hserve) (fun thread turn hcommits hphase => ?_) hattends
  · rw [Thread.Commits, hclosed]
    trivial
  · intro request hrequest hsuccess
    rw [Thread.Commits, hphase] at hcommits
    rcases hcommits with ⟨hall, -⟩ | hfails
    · exact hall
    · exact absurd ⟨request, hrequest, hsuccess⟩ hfails

end Runs

/-! ### The front-ends -/

theorem Resp.deleteAll_trusts (client : UInt32) (seq : UInt64) (keys : List Bytes) (count : Int64)
    (success : Int64 → Prop) :
    (Resp.deleteAll client seq keys count).Trusts (fun op => App.resp.ignores op.kind = false)
      (fun op => App.resp.lenient op.kind = false) success := by
  induction keys generalizing count with
  | nil => trivial
  | cons key keys ih =>
      refine ⟨fun answer => ?_, fun hfail => Bool.noConfusion hfail,
        fun hsuppress => Bool.noConfusion hsuppress⟩
      cases answer with
      | none => exact ih _
      | some output =>
          cases output with
          | value deleted => cases deleted <;> exact ih _
          | ok | bytes _ | suppressed => exact ih _

theorem Resp.not_success {output : Bytes} (args : List Bytes)
    (houtput : (decide (output = asBytes "+OK\r\n") || decide (output.head? = some 58)) = false) :
    ¬ Resp.success args output = true := by
  rw [Resp.success, houtput, Bool.and_false]
  exact Bool.false_ne_true

theorem Resp.dispatch_trusts (client : UInt32) (seq : UInt64) (args : List Bytes) :
    (Resp.dispatch args client seq).Trusts (fun op => App.resp.ignores op.kind = false)
      (fun op => App.resp.lenient op.kind = false)
      fun reply => Resp.success args reply.toBytes = true := by
  have hunavailable := Resp.not_success args (by decide : (decide (Resp.unavailable.toBytes
    = asBytes "+OK\r\n") || decide (Resp.unavailable.toBytes.head? = some 58)) = false)
  have hnil : ¬ Resp.success args (Resp.Reply.bulk none).toBytes = true := by
    rw [Resp.Reply.toBytes]
    exact Resp.not_success args (by decide)
  rw [Resp.dispatch]
  refine .ite (fun _ => .ite (fun _ => trivial) fun _ => trivial) fun _ => ?_
  refine .ite (fun _ => ?set) fun _ => .ite (fun _ => ?get) fun _ => .ite (fun _ => ?incr) fun _ =>
    .ite (fun _ => ?del) fun _ => .ite (fun _ => ?dbsize) fun _ => ?rest
  case set =>
    refine ⟨fun answer => ?_, fun _ => hunavailable, fun hsuppress => Bool.noConfusion hsuppress⟩
    cases answer <;> trivial
  case get =>
    refine ⟨fun answer => ?_, fun _ => hnil, fun _ => hnil⟩
    rcases answer with _ | _ | _ | _ | _ <;> trivial
  case incr =>
    split
    · trivial
    · refine ⟨fun answer => ?_, fun _ => hunavailable, fun _ => hunavailable⟩
      rcases answer with _ | _ | (_ | value) | value | _ <;> trivial
  case del => exact (Resp.deleteAll_trusts client seq args.tail 0 _).bind_ret
  case dbsize => exact fun count => trivial
  case rest =>
    exact .ite (fun _ => trivial) fun _ => .ite (fun _ => trivial) fun _ =>
      .ite (fun _ => trivial) fun _ => .ite (fun _ => trivial) fun _ => trivial

theorem Resp.serve_trusts (client : UInt32) (seq : UInt64) (args : List Bytes) :
    (Resp.serve client seq args).Trusts (fun op => App.resp.ignores op.kind = false)
      (fun op => App.resp.lenient op.kind = false)
      fun turn => Resp.success args turn.output = true :=
  .ite (fun _ => trivial) fun _ => (Resp.dispatch_trusts client (seq + 1) args).bind_ret

theorem Memcache.serve_trusts (client : UInt32) (seq : UInt64) (command : Memcache.Command) :
    (Memcache.serve client seq command).Trusts (fun op => App.memcache.ignores op.kind = false)
      (fun op => App.memcache.lenient op.kind = false)
      fun turn => Memcache.success command turn.output = true := by
  rw [Memcache.serve]
  refine .ite (fun _ => .ite (fun _ => trivial) fun _ => ?store) fun hstorage =>
    .ite (fun hname => ?get) fun _ => .ite (fun _ => ?incr) fun hincr =>
      .ite (fun _ => ?delete) fun _ => .ite (fun _ => trivial) fun _ =>
        .ite (fun _ => trivial) fun _ => trivial
  case store =>
    exact ⟨fun _ => trivial, fun hfail => Bool.noConfusion hfail,
      fun hsuppress => Bool.noConfusion hsuppress⟩
  case get =>
    refine (Conv.fails_of_never (fun turn => ?_) _).trusts
    have hincr : Memcache.isIncr command.parts = false := by
      rcases hname with hname | hname
      · simp only [Memcache.isIncr, hname]
        rfl
      · simp only [Memcache.isIncr, hname]
        rfl
    simp [Memcache.success, hstorage, hincr]
  case incr =>
    have hnumber : ∀ output, Memcache.isNumber output = false →
        ¬ Memcache.success command output = true := by
      intro output houtput
      simp [Memcache.success, hstorage, houtput]
    have hmissing := hnumber (asBytes "NOT_FOUND\r\n") (by decide)
    have herror := hnumber (asBytes "ERROR\r\n") (by decide)
    refine ⟨fun answer => ?_, fun _ => hmissing, fun _ => hmissing⟩
    rcases answer with _ | _ | _ | (_ | value) | _
    · trivial
    · trivial
    · trivial
    · trivial
    · refine ⟨fun answer => ?_, fun _ => herror, fun _ => herror⟩
      rcases answer with _ | _ | (_ | value) | value | _ <;> trivial
    · trivial
  case delete =>
    refine (Conv.fails_of_never (fun turn => ?_) _).trusts
    have hincr : Memcache.isIncr command.parts = false := by
      simpa [Memcache.isIncr] using hincr
    simp [Memcache.success, hstorage, hincr]

theorem Http.serve_trusts (client : UInt32) (seq : UInt64) (request : Http.Request) :
    (Http.serve client seq request).Trusts (fun op => App.http.ignores op.kind = false)
      (fun op => App.http.lenient op.kind = false)
      fun turn => Http.success request turn.output = true := by
  have hunavailable : ¬ Http.success request
      (Http.writeResponse 503 (asBytes "unavailable") request.keepAlive) = true := by
    have hprefix : (asBytes "HTTP/1.1 200").isPrefixOf
        (Http.writeResponse 503 (asBytes "unavailable") request.keepAlive) = false := by
      cases request.keepAlive <;> decide
    rw [Http.success, hprefix, Bool.and_false]
    exact Bool.false_ne_true
  refine Conv.Trusts.bind_ret ?_
  rw [Http.route]
  refine .ite (fun hget => ?get) fun _ => .ite (fun _ => ?put) fun _ => .ite (fun _ => ?post) fun _ =>
    .ite (fun hdelete => ?delete) fun _ => trivial
  case get =>
    refine (Conv.fails_of_never (fun turn => ?_) _).trusts
    simp [Http.success, hget]
  case put =>
    refine ⟨fun answer => ?_, fun _ => hunavailable, fun hsuppress => Bool.noConfusion hsuppress⟩
    cases answer <;> trivial
  case post =>
    refine ⟨fun answer => ?_, fun _ => hunavailable, fun _ => hunavailable⟩
    rcases answer with _ | _ | (_ | value) | value | _ <;> trivial
  case delete =>
    refine (Conv.fails_of_never (fun turn => ?_) _).trusts
    simp [Http.success, hdelete]

theorem Txn.write_trusts (client : UInt32) (conn : Txn.Conn) (entry : String × Option Bytes)
    (success : Turn Txn.Conn → Prop) :
    (Txn.write client conn entry).Trusts (fun op => App.txn.ignores op.kind = false)
      (fun op => App.txn.lenient op.kind = false) success :=
  .ite (fun _ => trivial) fun _ => ⟨fun _ => trivial, fun hfail => Bool.noConfusion hfail,
    fun hsuppress => Bool.noConfusion hsuppress⟩

theorem Txn.serve_trusts (client : UInt32) (conn : Txn.Conn) (parts : List (List Char)) :
    (Txn.serve client conn parts).Trusts (fun op => App.txn.ignores op.kind = false)
      (fun op => App.txn.lenient op.kind = false)
      fun turn => Txn.success parts turn.output = true := by
  rw [Txn.serve]
  refine .ite (fun _ => trivial) fun _ => .ite (fun _ => Txn.write_trusts client conn _ _) fun _ =>
    .ite (fun _ => Txn.write_trusts client conn _ _) fun _ => .ite (fun _ => ?get) fun _ =>
      .ite (fun _ => .ite (fun _ => ?commit) fun _ => trivial) fun _ =>
        .ite (fun _ => trivial) fun _ => .ite (fun _ => trivial) fun _ => trivial
  case get =>
    have hnil : ¬ Txn.success parts (asBytes "NIL\r\n") = true := by
      simp [Txn.success, show (asBytes "NIL\r\n" = asBytes "OK\r\n") = False by decide,
        show ((asBytes "COMMIT ").isPrefixOf (asBytes "NIL\r\n")) = false by decide]
    refine ⟨fun answer => ?_, fun _ => hnil, fun _ => hnil⟩
    rcases answer with _ | _ | _ | (_ | value) | _ <;> trivial
  case commit =>
    exact ⟨fun _ => trivial, fun hfail => Bool.noConfusion hfail,
      fun hsuppress => Bool.noConfusion hsuppress⟩

theorem StreamLog.serve_trusts (client : UInt32) (seq : UInt64) (parts : List (List Char)) :
    (StreamLog.serve client seq parts).Trusts (fun op => App.streamlog.ignores op.kind = false)
      (fun op => App.streamlog.lenient op.kind = false)
      fun turn => StreamLog.success parts turn.output = true := by
  have hnever : ∀ text : List Char, text ≠ "PUB".toList → StreamLog.name parts = text →
      ∀ turn : Turn UInt64, ¬ StreamLog.success parts turn.output = true := by
    intro text htext hname turn
    have hpub : StreamLog.isPub parts = false := by
      rw [StreamLog.isPub, hname, decide_eq_false htext, Bool.false_and]
    rw [StreamLog.success, hpub, Bool.false_and]
    exact Bool.false_ne_true
  rw [StreamLog.serve]
  refine .ite (fun _ => ?pub) fun _ => .ite (fun hsub => ?sub) fun _ => .ite (fun hlen => ?len) fun _ =>
    .ite (fun _ => trivial) fun _ => trivial
  case pub =>
    have hunavailable : ¬ StreamLog.success parts (asBytes "ERR unavailable\r\n") = true := by
      simp [StreamLog.success,
        show ((asBytes "OFFSET ").isPrefixOf (asBytes "ERR unavailable\r\n")) = false by decide]
    refine ⟨fun answer => ?_, fun _ => hunavailable, fun _ => hunavailable⟩
    rcases answer with _ | _ | (_ | offset) | value | _
    · trivial
    · trivial
    · trivial
    · exact ⟨fun _ => trivial, fun hfail => Bool.noConfusion hfail,
        fun hsuppress => Bool.noConfusion hsuppress⟩
    · trivial
    · trivial
  case sub => exact (Conv.fails_of_never (hnever _ (by decide) hsub.1) _).trusts
  case len => exact (Conv.fails_of_never (hnever _ (by decide) hlen.1) _).trusts

theorem App.serve_trusts (app : App) :
    ∀ client conn request, (app.frontend.serve client conn request).Trusts
      (fun op => app.ignores op.kind = false) (fun op => app.lenient op.kind = false)
        fun turn => app.success request turn.output = true := by
  cases app with
  | resp => exact Resp.serve_trusts
  | memcache => exact Memcache.serve_trusts
  | http => exact Http.serve_trusts
  | txn => exact Txn.serve_trusts
  | streamlog => exact StreamLog.serve_trusts

/-- **Output commit.** As long as an op whose answer is dropped meets a live executor that takes it,
and an op for which any answer counts is not a duplicate, a success reply to a write stands behind
log records for all of its ops. -/
theorem App.success_replies_logged (app : App) (interval : UInt64)
    (events : List (WorldEvent app.frontend))
    (hattends : Run.Guarded World.step
      (World.Attends (fun op => app.ignores op.kind = false) fun op => app.lenient op.kind = false)
      (World.start interval) events) :
    ∀ served ∈ (Run.run World.step (World.start interval : World app.frontend) events).replies,
      ∀ request, served.request = some request → app.success request served.output = true →
        ∀ answer ∈ served.answers, answer.1 ∈ served.logged :=
  World.success_logged app.serve_trusts hattends

/-- The log cannot be written, for this delivery. -/
def noAppend : Faults := { append := .failBefore, snapshot := .none }

/-- A `SET` that is logged, and an `INCR` whose record is not written. -/
def failedIncr : List (WorldEvent App.resp.frontend) :=
  [.accept 0 1, .request 0 [asBytes "SET", asBytes "k", asBytes "1"], .send 0,
    .execute Faults.clean 0, .receive 0, .reply 0, .request 0 [asBytes "INCR", asBytes "k"],
    .send 0, .execute noAppend 0, .receive 0, .reply 0]

theorem success_replies_logged_with_failed_append :
    let world := Run.run World.step (World.start 8) failedIncr
    world.replies.map Served.output = [asBytes "+OK\r\n", asBytes "-ERR executor unavailable\r\n"]
      ∧ ∀ served ∈ world.replies, ∀ request, served.request = some request →
        Resp.success request served.output = true →
          ∀ answer ∈ served.answers, answer.1 ∈ served.logged :=
  ⟨by decide +kernel, App.success_replies_logged .resp 8 failedIncr (by decide +kernel)⟩

/-- `SET` on the transactional front-end: the record is not written, the executor ends, and the
client reads `OK`. -/
theorem txn_set_acked_unlogged :
    let world := Run.run World.step (World.start 8 : World txn)
      [.accept 0 1, .request 0 ["SET".toList, "k".toList, "v".toList], .send 0,
        .execute noAppend 0, .receive 0, .reply 0]
    ∃ served ∈ world.replies, ∃ request, served.request = some request
      ∧ Txn.success request served.output = true
      ∧ ∃ answer ∈ served.answers, answer.1 ∉ served.logged := by
  refine ⟨_, List.mem_singleton_self _, _, rfl, ?_, _, List.mem_singleton_self _, ?_⟩
  · decide +kernel
  · decide +kernel

end OneBarrier
