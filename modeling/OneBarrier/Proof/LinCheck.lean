import OneBarrier.LinCheck
import OneBarrier.Proof.Access
import OneBarrier.Proof.Accounts
import OneBarrier.Proof.AppJepsen
import OneBarrier.Proof.Crashes

/-!
# The checker accepts what the server does

Every command on the register is one op, and takes effect when the executor delivers it, which is
between the times its client records. The executor takes one op after another, so the effects have an
order with times that do not go back; the values read are those of the store, and so of the order.
-/

namespace OneBarrier

/-- Noting one more entry of a list adds what is noted. -/
theorem perm_filterMap_update {α β κ : Type} [DecidableEq κ] {key : α → κ} {entries : List α}
    (hkeys : (entries.map key).Nodup) {entry : α} (hentry : entry ∈ entries)
    {noted : κ → Option β} (hnew : noted (key entry) = none) (note : β) :
    (note :: entries.filterMap fun other => noted (key other)).Perm
      (entries.filterMap fun other => Function.update noted (key entry) (some note) (key other)) := by
  obtain ⟨before, after, rfl⟩ := List.append_of_mem hentry
  rw [List.map_append, List.map_cons] at hkeys
  have hnotMem : key entry ∉ before.map key ++ after.map key :=
    (List.nodup_cons.mp (List.nodup_middle.mp hkeys)).1
  rw [List.mem_append, not_or] at hnotMem
  obtain ⟨hbefore, hafter⟩ := hnotMem
  have hsame : ∀ others : List α, key entry ∉ others.map key →
      (others.filterMap fun other => Function.update noted (key entry) (some note) (key other))
        = others.filterMap fun other => noted (key other) := by
    intro others hothers
    refine List.filterMap_congr fun other hother => ?_
    refine Function.update_of_ne (fun hkey => hothers ?_) _ _
    rw [← hkey]
    exact List.mem_map_of_mem hother
  rw [List.filterMap_append, List.filterMap_append, List.filterMap_cons, List.filterMap_cons, hnew,
    Function.update_self, hsame before hbefore, hsame after hafter]
  exact List.perm_middle.symm

namespace World

variable {frontend : Frontend} {world : World frontend} {handle : Nat}

/-- What another connection does leaves a closed one closed. -/
theorem closed_update (hclosed : (world.threads handle).phase = .closed) {other : Nat}
    {thread : Thread frontend} (hopen : (world.threads other).phase ≠ .closed) :
    (Function.update world.threads other thread handle).phase = .closed := by
  have hne : handle ≠ other := by
    rintro rfl
    exact hopen hclosed
  rw [Function.update_of_ne hne]
  exact hclosed

/-- A connection is opened by being accepted only. -/
theorem closed_step (hclosed : (world.threads handle).phase = .closed)
    {event : WorldEvent frontend} (hevent : ∀ id, event ≠ .accept handle id) :
    ((world.step event).threads handle).phase = .closed := by
  cases event with
  | accept other id =>
      rw [World.step]
      split
      · have hne : handle ≠ other := fun hsame => hevent id (hsame ▸ rfl)
        simp only [World.set, Function.update_of_ne hne]
        exact hclosed
      · exact hclosed
  | disconnect other | request other request =>
      rw [World.step]
      split
      · rename_i hphase
        exact closed_update hclosed (by rw [hphase]; rintro ⟨⟩)
      · exact hclosed
  | send other =>
      rw [World.step, World.send]
      dsimp only
      split
      · rename_i hphase
        split <;> exact closed_update hclosed (by rw [hphase]; rintro ⟨⟩)
      · rename_i hphase
        split <;> exact closed_update hclosed (by rw [hphase]; rintro ⟨⟩)
      · exact hclosed
  | receive other =>
      rw [World.step, World.receive]
      dsimp only
      split
      · rename_i hphase
        exact closed_update hclosed (by rw [hphase]; rintro ⟨⟩)
      · rename_i hphase
        split
        · exact hclosed
        · exact closed_update hclosed (by rw [hphase]; rintro ⟨⟩)
      · rename_i hphase
        exact closed_update hclosed (by rw [hphase]; rintro ⟨⟩)
      · rename_i hphase
        split
        · exact hclosed
        · exact closed_update hclosed (by rw [hphase]; rintro ⟨⟩)
      · exact hclosed
  | reply other =>
      rw [World.step, World.reply]
      dsimp only
      split
      · rename_i hphase
        exact closed_update hclosed (by rw [hphase]; rintro ⟨⟩)
      · exact hclosed
  | execute faults tick =>
      rw [World.step, World.execute]
      split
      · rename_i engine job queue hengine hqueue
        split
        · rename_i op hreq
          obtain ⟨phase, logged, hthread, hcases⟩ := threads_deliver
            { world with clock := world.clock + 1, queue } engine faults (max (world.clock + 1) tick)
            job op handle
          rw [hthread]
          rcases hcases with hphase | ⟨hphase, -⟩ | ⟨-, out, hphase, -⟩
          · exact hphase
          · exact hphase.trans hclosed
          · refine hphase.trans ?_
            dsimp only
            rw [hclosed]
            rfl
        · by_cases hsame : handle = job.handle
          · rw [hsame] at hclosed ⊢
            simp only [World.set, Function.update_self, hclosed]
            rfl
          · simp only [World.set, Function.update_of_ne hsame]
            exact hclosed
      · exact hclosed
  | crash => rfl
  | restart interval =>
      rw [World.step]
      split <;> exact hclosed

theorem closed_run {events : List (WorldEvent frontend)}
    (hclosed : (world.threads handle).phase = .closed)
    (hevents : ∀ event ∈ events, ∀ id, event ≠ .accept handle id) :
    ((Run.run World.step world events).threads handle).phase = .closed := by
  induction events generalizing world with
  | nil => exact hclosed
  | cons event events ih =>
      exact ih (closed_step hclosed (hevents event List.mem_cons_self))
        fun other hother => hevents other (List.mem_cons_of_mem _ hother)

/-- A delivery that returns answers the thread that waits for it. -/
theorem threads_deliver_ok
    {engine : Engine KvStore} {faults : Faults} {ts : UInt64} {job : Job} {op : Op}
    {next : Option Output → Conv (Turn frontend.Conn)} {out : Output}
    (hphase : (world.threads job.handle).phase = .applying op next none)
    (hok : (engine.deliver faults world.history.disk ts op).1 = .ok out) :
    ∃ logged, (world.deliver engine faults ts job op).threads
      = Function.update world.threads job.handle { world.threads job.handle with
        phase := .applying op next (some out), logged } := by
  refine ⟨if engine.logs faults ts op then (world.threads job.handle).logged ++ [op]
    else (world.threads job.handle).logged, ?_⟩
  simp only [World.deliver, hok, World.set, threads_record, Function.update_self,
    Function.update_idem, hphase, Phase.answer]

end World

namespace Resp

open Wire Utf8 Text

/-- The reply to a write, given the answer to its op. -/
def writeReply (out : Option Output) : Bytes := (if out = none then unavailable else Reply.ok).toBytes

/-- The reply to a read, given the answer to its op. -/
def readReply (out : Option Output) : Bytes :=
  match out with
  | some (.bytes value) => (Reply.bulk value).toBytes
  | _ => (Reply.bulk none).toBytes

theorem serve_set (id : UInt32) (seq : UInt64) (key : String) (value : Bytes) :
    serve id seq [asBytes "SET", asBytes key, value]
      = .apply { client := id, seq := seq + 1, kind := .set key value } fun out =>
        .ret { conn := seq + 1, output := writeReply out } := by
  have hname : (asBytes "SET").map asciiUpper = asBytes "SET" := by decide
  rw [serve, List.headD_cons, hname, if_neg (by decide), dispatch, List.headD_cons, hname,
    if_neg (by decide), if_pos ⟨rfl, Nat.le_refl 3⟩]
  simp only [List.getD_cons_succ, List.getD_cons_zero, fromUtf8Lossy_asBytes]
  refine congrArg (Conv.apply _) (funext fun out => ?_)
  cases out <;> rfl

theorem serve_get (id : UInt32) (seq : UInt64) (key : String) :
    serve id seq [asBytes "GET", asBytes key]
      = .apply { client := id, seq := seq + 1, kind := .get key } fun out =>
        .ret { conn := seq + 1, output := readReply out } := by
  have hname : (asBytes "GET").map asciiUpper = asBytes "GET" := by decide
  rw [serve, List.headD_cons, hname, if_neg (by decide),
    @dispatch_get [asBytes "GET", asBytes key] hname (Nat.le_refl 2)]
  simp only [List.getD_cons_succ, List.getD_cons_zero, fromUtf8Lossy_asBytes]
  refine congrArg (Conv.apply _) (funext fun out => ?_)
  rcases out with _ | _ | _ | _ | _ <;> rfl

end Resp

namespace LinCheck

open Wire Utf8 Text Durable Linearizability AppJepsen

/-! ### Commands on the register -/

/-- The op of a client's command. -/
def registerOp (id : UInt32) (seq : UInt64) (client round : Nat) : Op where
  client := id
  seq := seq + 1
  kind :=
    if round % 2 = 0 then .set "reg" (asBytes (showI64 (value client round))) else .get "reg"

/-- The reply to it, given the answer to its op. -/
def replyTo (round : Nat) (out : Option Output) : Bytes :=
  if round % 2 = 0 then Resp.writeReply out else Resp.readReply out

theorem serve_command (id : UInt32) (seq : UInt64) (client round : Nat) :
    Resp.serve id seq (command client round) = .apply (registerOp id seq client round) fun out =>
      .ret { conn := seq + 1, output := replyTo round out } := by
  unfold command registerOp replyTo
  split
  · exact Resp.serve_set id seq "reg" _
  · exact Resp.serve_get id seq "reg"

/-- What a client records of an op is what the op does to the register. -/
theorem action_replyTo (store : KvStore) (id : UInt32) (seq : UInt64) (client round : Nat) {op : Op}
    (hop : op = registerOp id seq client round) {recorded : Action}
    (hrecorded : recorded = action client round (replyTo round (some (store.apply op).2))) :
    valid recorded (registered store.map["reg"]?) = true
      ∧ registered (store.apply op).1.map["reg"]? = apply recorded (registered store.map["reg"]?) := by
  have hkind : op.kind = if round % 2 = 0 then .set "reg" (asBytes (showI64 (value client round)))
      else .get "reg" := by rw [hop]; rfl
  by_cases hround : round % 2 = 0
  · rw [if_pos hround] at hkind
    rw [action, if_pos hround] at hrecorded
    rw [hrecorded, KvStore.apply, hkind]
    refine ⟨rfl, ?_⟩
    rw [Std.ExtTreeMap.getElem?_insert_self, registered_showI64]
    rfl
  · rw [if_neg hround] at hkind
    have happly : store.apply op = (store, .bytes store.map["reg"]?) := by
      rw [KvStore.apply, hkind]
    have hread : recorded = .read (registered store.map["reg"]?) := by
      rw [hrecorded, happly, action, if_neg hround]
      unfold replyTo
      rw [if_neg hround]
      cases store.map["reg"]? <;> rfl
    rw [hread, happly]
    exact ⟨beq_self_eq_true _, rfl⟩

/-! ### The order in which the ops take effect -/

/-- A command of a client that has taken effect. -/
structure Effect where
  client : Nat
  round : Nat
  action : Action
  time : UInt64

def Effect.key (effect : Effect) : Nat × Nat := (effect.client, effect.round)

/-- No command of the client's round has taken effect. -/
def Fresh (order : List Effect) (client round : Nat) : Prop :=
  ∀ effect ∈ order, effect.client = client → effect.round < round

/-- The client's command has taken effect, between these times. -/
def Done (order : List Effect) (client round : Nat) (action : Action) (inv res : UInt64) : Prop :=
  ∃ effect ∈ order, effect.key = (client, round) ∧ effect.action = action ∧ inv ≤ effect.time
    ∧ effect.time ≤ res

def seqOf (thread : Thread resp) : UInt64 := thread.conn

/-- With the answer to its op the thread replies. -/
def Finishes (thread : Thread resp) (round : Nat) (next : Option Output → Conv (Turn resp.Conn)) :
    Prop :=
  ∀ out, next out = .ret { conn := seqOf thread + 1, output := replyTo round out }

/-- How far the server is with a client's command. -/
inductive Working (order : List Effect) (thread : Thread resp) (client round : Nat)
    (inv res : UInt64) : Prop
  | asks {next : Option Output → Conv (Turn resp.Conn)}
      (hphase : thread.phase
        = .serving (.apply (registerOp thread.client (seqOf thread) client round) next))
      (hnext : Finishes thread round next) (hfresh : Fresh order client round)
  | waits {next : Option Output → Conv (Turn resp.Conn)}
      (hphase : thread.phase
        = .applying (registerOp thread.client (seqOf thread) client round) next none)
      (hnext : Finishes thread round next) (hfresh : Fresh order client round)
  | has {op : Op} {next : Option Output → Conv (Turn resp.Conn)} {out : Output}
      (hphase : thread.phase = .applying op next (some out)) (hnext : Finishes thread round next)
      (hdone : Done order client round (action client round (replyTo round (some out))) inv res)
  | ends {turn : Turn resp.Conn} (hphase : thread.phase = .serving (.ret turn))
      (hdone : Done order client round (action client round turn.output) inv res)

/-- What the place where a client stands says about its command. -/
def Standing (order : List Effect) (clock : UInt64) (client : Nat) (standing : Client)
    (thread : Thread resp) : Prop :=
  match standing.pc with
  | .top | .finished => thread.phase.conv = none ∧ Fresh order client standing.round
  | .sent inv => inv ≤ clock ∧ thread.phase.conv = none ∧ Fresh order client standing.round
  | .taken inv => inv ≤ clock ∧ Working order thread client standing.round inv clock
  | .answered inv reply =>
      inv ≤ clock ∧ thread.phase.conv = none
        ∧ Done order client standing.round (action client standing.round reply) inv clock
  | .record op =>
      thread.phase.conv = none ∧ Done order client standing.round op.action op.inv op.res

/-- The register of the server's store. -/
def reg (executions : List (Execution resp)) : Int64 :=
  registered (stored StateMachine.default executions).map["reg"]?

/-- The order in which the commands have taken effect, and with it what the clients have recorded. -/
structure Judged (load : Load) (state : State) (executions : List (Execution resp)) (order : List Effect)
    (noted : Nat × Nat → Option LinOp) : Prop where
  standing : ∀ client, Standing order state.clock client (state.clients client)
    (state.world.threads client)
  outside : ∀ client, load.clients ≤ client → (state.clients client).pc = .top
  bound : ∀ effect ∈ order, effect.round ≤ (state.clients effect.client).round
  keys : (order.map Effect.key).Nodup
  times : order.Pairwise fun earlier later => earlier.time ≤ later.time
  past : ∀ effect ∈ order, effect.time ≤ state.clock
  legal : Legal 0 (order.map Effect.action)
  register : reg executions
    = (order.map Effect.action).foldl (fun value action => apply action value) 0
  ahead : ∀ client round, (state.clients client).round ≤ round → noted (client, round) = none
  pending : ∀ effect ∈ order, noted effect.key = none →
    effect.round = (state.clients effect.client).round
  known : ∀ effect ∈ order, ∀ op, noted effect.key = some op →
    op.action = effect.action ∧ op.inv ≤ effect.time ∧ effect.time ≤ op.res
  history : state.history.Perm (order.filterMap fun effect => noted effect.key)

section Frame

variable {order order' : List Effect} {clock clock' : UInt64} {client round : Nat}
  {standing : Client} {thread thread' : Thread resp}

theorem Fresh.mono (hfresh : Fresh order client round)
    (hold : ∀ effect ∈ order', effect.client = client → effect ∈ order) :
    Fresh order' client round :=
  fun effect heffect hclient => hfresh effect (hold effect heffect hclient) hclient

theorem Done.mono {action : Action} {inv res res' : UInt64}
    (hdone : Done order client round action inv res) (hnew : ∀ effect ∈ order, effect ∈ order')
    (hres : res ≤ res') : Done order' client round action inv res' := by
  obtain ⟨effect, heffect, hkey, haction, hinv, htime⟩ := hdone
  exact ⟨effect, hnew effect heffect, hkey, haction, hinv, UInt64.le_trans htime hres⟩

/-- The server is as far with a command as it was, whatever it does for others. -/
theorem Working.mono {inv res res' : UInt64} (hworking : Working order thread client round inv res)
    (hold : ∀ effect ∈ order', effect.client = client → effect ∈ order)
    (hnew : ∀ effect ∈ order, effect ∈ order') (hres : res ≤ res')
    (hphase : thread'.phase = thread.phase) (hid : thread'.client = thread.client)
    (hconn : seqOf thread' = seqOf thread) : Working order' thread' client round inv res' := by
  have hfinishes : ∀ {next : Option Output → Conv (Turn resp.Conn)}, Finishes thread round next →
      Finishes thread' round next := by
    intro next hnext out
    rw [hnext out, hconn]
  cases hworking with
  | asks hasks hnext hfresh =>
      rw [← hid, ← hconn, ← hphase] at hasks
      exact .asks hasks (hfinishes hnext) (hfresh.mono hold)
  | waits hwaits hnext hfresh =>
      rw [← hid, ← hconn, ← hphase] at hwaits
      exact .waits hwaits (hfinishes hnext) (hfresh.mono hold)
  | has hhas hnext hdone =>
      exact .has (hphase.trans hhas) (hfinishes hnext) (hdone.mono hnew hres)
  | ends hends hdone => exact .ends (hphase.trans hends) (hdone.mono hnew hres)

/-- A client stands where it stood, whatever the others do. -/
theorem Standing.mono (hstanding : Standing order clock client standing thread)
    (hold : ∀ effect ∈ order', effect.client = client → effect ∈ order)
    (hnew : ∀ effect ∈ order, effect ∈ order') (hclock : clock ≤ clock')
    (hphase : thread'.phase = thread.phase) (hid : thread'.client = thread.client)
    (hconn : seqOf thread' = seqOf thread) : Standing order' clock' client standing thread' := by
  unfold Standing at hstanding ⊢
  rw [hphase]
  cases hpc : standing.pc with
  | top | finished =>
      simp only [hpc] at hstanding ⊢
      exact ⟨hstanding.1, hstanding.2.mono hold⟩
  | sent inv =>
      simp only [hpc] at hstanding ⊢
      exact ⟨UInt64.le_trans hstanding.1 hclock, hstanding.2.1, hstanding.2.2.mono hold⟩
  | taken inv =>
      simp only [hpc] at hstanding ⊢
      exact ⟨UInt64.le_trans hstanding.1 hclock,
        hstanding.2.mono hold hnew hclock hphase hid hconn⟩
  | answered inv reply =>
      simp only [hpc] at hstanding ⊢
      exact ⟨UInt64.le_trans hstanding.1 hclock, hstanding.2.1, hstanding.2.2.mono hnew hclock⟩
  | record op =>
      simp only [hpc] at hstanding ⊢
      exact ⟨hstanding.1, hstanding.2.mono hnew UInt64.le_rfl⟩

/-- A connection that is at rest may be opened and closed. -/
theorem Standing.rest (hstanding : Standing order clock client standing thread)
    (hrest : thread.phase.conv = none) (hrest' : thread'.phase.conv = none) :
    Standing order clock client standing thread' := by
  unfold Standing at hstanding ⊢
  cases hpc : standing.pc with
  | top | finished =>
      simp only [hpc] at hstanding ⊢
      exact ⟨hrest', hstanding.2⟩
  | sent inv =>
      simp only [hpc] at hstanding ⊢
      exact ⟨hstanding.1, hrest', hstanding.2.2⟩
  | taken inv =>
      simp only [hpc] at hstanding
      obtain ⟨-, hworking⟩ := hstanding
      cases hworking with
      | asks hphase | waits hphase | has hphase | ends hphase =>
          rw [hphase] at hrest
          cases hrest
  | answered inv reply =>
      simp only [hpc] at hstanding ⊢
      exact ⟨hstanding.1, hrest', hstanding.2.2⟩
  | record op =>
      simp only [hpc] at hstanding ⊢
      exact ⟨hrest', hstanding.2⟩

/-- A connection at work is at work on its client's command. -/
theorem Standing.working (hstanding : Standing order clock client standing thread)
    (hconv : thread.phase.conv ≠ none) :
    ∃ inv, standing.pc = .taken inv ∧ inv ≤ clock
      ∧ Working order thread client standing.round inv clock := by
  unfold Standing at hstanding
  cases hpc : standing.pc with
  | top | finished =>
      simp only [hpc] at hstanding
      exact absurd hstanding.1 hconv
  | sent inv =>
      simp only [hpc] at hstanding
      exact absurd hstanding.2.1 hconv
  | taken inv =>
      simp only [hpc] at hstanding
      exact ⟨inv, rfl, hstanding.1, hstanding.2⟩
  | answered inv reply =>
      simp only [hpc] at hstanding
      exact absurd hstanding.2.1 hconv
  | record op =>
      simp only [hpc] at hstanding
      exact absurd hstanding.1 hconv

end Frame

/-! ### Steps -/

section Steps

variable {load : Load} {state state' : State} {executions : List (Execution resp)} {order : List Effect}
  {noted : Nat × Nat → Option LinOp}

/-- A step that has no effect on the register and records nothing. -/
theorem Judged.keep (hjudged : Judged load state executions order noted)
    (hclock : state.clock ≤ state'.clock) (hhistory : state'.history = state.history)
    (hrounds : ∀ client, (state'.clients client).round = (state.clients client).round)
    (houtside : ∀ client, load.clients ≤ client → (state'.clients client).pc = .top)
    (hstanding : ∀ client, Standing order state'.clock client (state'.clients client)
      (state'.world.threads client)) : Judged load state' executions order noted where
  standing := hstanding
  outside := houtside
  bound := by
    intro effect heffect
    rw [hrounds]
    exact hjudged.bound effect heffect
  keys := hjudged.keys
  times := hjudged.times
  past := fun effect heffect => UInt64.le_trans (hjudged.past effect heffect) hclock
  legal := hjudged.legal
  register := hjudged.register
  ahead := by
    intro client round hle
    rw [hrounds] at hle
    exact hjudged.ahead client round hle
  pending := by
    intro effect heffect hnone
    rw [hrounds]
    exact hjudged.pending effect heffect hnone
  known := hjudged.known
  history := by
    rw [hhistory]
    exact hjudged.history

/-- Such a step of one client and its connection. -/
theorem Judged.move (hjudged : Judged load state executions order noted) (client : Nat)
    (hclock : state'.clock = state.clock) (hhistory : state'.history = state.history)
    (hothers : ∀ other, other ≠ client → state'.clients other = state.clients other
      ∧ state'.world.threads other = state.world.threads other)
    (hround : (state'.clients client).round = (state.clients client).round)
    (houtside : load.clients ≤ client → (state'.clients client).pc = .top)
    (hstanding : Standing order state.clock client (state'.clients client)
      (state'.world.threads client)) : Judged load state' executions order noted := by
  refine hjudged.keep (hclock ▸ UInt64.le_rfl) hhistory ?_ ?_ ?_
  · intro other
    by_cases hother : other = client
    · rw [hother, hround]
    · rw [(hothers other hother).1]
  · intro other hle
    by_cases hother : other = client
    · rw [hother] at hle ⊢
      exact houtside hle
    · rw [(hothers other hother).1]
      exact hjudged.outside other hle
  · intro other
    rw [hclock]
    by_cases hother : other = client
    · rw [hother]
      exact hstanding
    · rw [(hothers other hother).1, (hothers other hother).2]
      exact hjudged.standing other

theorem Judged.tick (hjudged : Judged load state executions order noted) {time : UInt64}
    (htime : state.clock ≤ time) : Judged load { state with clock := time } executions order noted :=
  hjudged.keep htime rfl (fun _ => rfl) hjudged.outside fun client =>
    (hjudged.standing client).mono (fun _ heffect _ => heffect) (fun _ heffect => heffect) htime rfl
      rfl rfl

theorem Judged.goto (hjudged : Judged load state executions order noted) {client : Nat}
    (hclient : client < load.clients) (pc : Pc)
    (hstanding : Standing order state.clock client { state.clients client with pc }
      (state.world.threads client)) : Judged load (state.goto client pc) executions order noted := by
  have hself : (state.goto client pc).clients client = { state.clients client with pc } :=
    Function.update_self ..
  refine hjudged.move client rfl rfl (fun other hother => ⟨?_, rfl⟩) (by rw [hself])
    (fun hle => absurd hclient (Nat.not_lt.mpr hle)) (by rw [hself]; exact hstanding)
  exact Function.update_of_ne hother _ _

/-- What a client has finished is recorded. -/
theorem Judged.push (hjudged : Judged load state executions order noted) {client : Nat}
    (hclient : client < load.clients) {op : LinOp} (hpc : (state.clients client).pc = .record op) :
    Judged load { state.set client { round := (state.clients client).round + 1, pc := .top } with
        history := state.history ++ [op] } executions order
      (Function.update noted (client, (state.clients client).round) (some op)) := by
  have hstanding := hjudged.standing client
  simp only [Standing, hpc] at hstanding
  obtain ⟨hrest, effect, heffect, hkey, haction, hinv, htime⟩ := hstanding
  have hself : (state.set client { round := (state.clients client).round + 1, pc := .top }).clients
      client = { round := (state.clients client).round + 1, pc := .top } := Function.update_self ..
  have hothers : ∀ other, other ≠ client →
      (state.set client { round := (state.clients client).round + 1, pc := .top }).clients other
        = state.clients other := fun other hother => Function.update_of_ne hother _ _
  have hnew : noted (client, (state.clients client).round) = none :=
    hjudged.ahead client _ (Nat.le_refl _)
  refine ⟨?_, ?_, ?_, hjudged.keys, hjudged.times, hjudged.past, hjudged.legal, hjudged.register, ?_,
    ?_, ?_, ?_⟩
  · intro other
    dsimp only
    by_cases hother : other = client
    · rw [hother, hself]
      refine ⟨hrest, fun mine hmine hsame => Nat.lt_succ_of_le ?_⟩
      have hbound := hjudged.bound mine hmine
      rwa [hsame] at hbound
    · rw [hothers other hother]
      exact hjudged.standing other
  · intro other hle
    have hother : other ≠ client := fun hsame => absurd hclient (Nat.not_lt.mpr (hsame ▸ hle))
    dsimp only
    rw [hothers other hother]
    exact hjudged.outside other hle
  · intro mine hmine
    have hbound := hjudged.bound mine hmine
    dsimp only
    by_cases hother : mine.client = client
    · rw [hother] at hbound ⊢
      rw [hself]
      exact Nat.le_succ_of_le hbound
    · rwa [hothers _ hother]
  · intro other round hle
    dsimp only at hle
    have hne : (other, round) ≠ (client, (state.clients client).round) := by
      rintro hsame
      obtain ⟨rfl, rfl⟩ := Prod.mk.inj hsame
      rw [hself] at hle
      exact absurd hle (Nat.not_succ_le_self _)
    rw [Function.update_of_ne hne]
    by_cases hother : other = client
    · rw [hother, hself] at hle
      exact hjudged.ahead other round (hother ▸ Nat.le_of_succ_le hle)
    · rw [hothers other hother] at hle
      exact hjudged.ahead other round hle
  · intro mine hmine hnone
    by_cases hsame : mine.key = (client, (state.clients client).round)
    · rw [hsame, Function.update_self] at hnone
      cases hnone
    · rw [Function.update_of_ne hsame] at hnone
      have hround := hjudged.pending mine hmine hnone
      have hother : mine.client ≠ client := fun hclient =>
        hsame (Prod.ext hclient (hround.trans (by rw [hclient])))
      dsimp only
      rwa [hothers _ hother]
  · intro mine hmine other hother
    by_cases hsame : mine.key = (client, (state.clients client).round)
    · rw [hsame, Function.update_self] at hother
      obtain rfl := Option.some.inj hother
      obtain rfl := List.inj_on_of_nodup_map hjudged.keys hmine heffect (hsame.trans hkey.symm)
      exact ⟨haction.symm, hinv, htime⟩
    · rw [Function.update_of_ne hsame] at hother
      exact hjudged.known mine hmine other hother
  · rw [← hkey] at hnew ⊢
    have hlast : (state.history ++ [op]).Perm (op :: state.history) :=
      List.perm_append_singleton op state.history
    refine hlast.trans ((hjudged.history.cons op).trans ?_)
    exact perm_filterMap_update hjudged.keys heffect hnew op

/-- A step of a client. -/
theorem Judged.client (hjudged : Judged load state executions order noted) {client : Nat}
    (hclient : client < load.clients) (hstep : clientStep load state client = some state') :
    ∃ noted', Judged load state' executions order noted' := by
  have hstanding := hjudged.standing client
  cases hpc : (state.clients client).pc with
  | top =>
      simp only [Standing, hpc] at hstanding
      simp only [clientStep, hpc, Option.some.injEq] at hstep
      subst hstep
      refine ⟨noted, hjudged.goto hclient _ ?_⟩
      split
      · exact ⟨UInt64.le_rfl, hstanding⟩
      · exact hstanding
  | answered inv reply =>
      simp only [Standing, hpc] at hstanding
      simp only [clientStep, hpc, Option.some.injEq] at hstep
      subst hstep
      exact ⟨noted, hjudged.goto hclient _ hstanding.2⟩
  | record op =>
      simp only [clientStep, hpc, Option.some.injEq] at hstep
      subst hstep
      exact ⟨_, hjudged.push hclient hpc⟩
  | sent inv | taken inv | finished =>
      simp only [clientStep, hpc] at hstep
      cases hstep

/-! ### Steps of the server -/

/-- A step of one connection that leaves its client where it stands. -/
theorem Judged.serve (hjudged : Judged load state executions order noted) {world : World resp}
    {handle : Nat} {thread : Thread resp}
    (hthreads : world.threads = Function.update state.world.threads handle thread)
    (hstanding : Standing order state.clock handle (state.clients handle) thread) :
    Judged load { state with world } executions order noted := by
  refine hjudged.move handle rfl rfl (fun other hother => ⟨rfl, ?_⟩) rfl (hjudged.outside handle) ?_
  · dsimp only
    rw [hthreads, Function.update_of_ne hother]
  · dsimp only
    rw [hthreads, Function.update_self]
    exact hstanding

/-- A step of one connection and its client. -/
theorem Judged.serve_goto (hjudged : Judged load state executions order noted) {world : World resp}
    {handle : Nat} {thread : Thread resp} (hne : (state.clients handle).pc ≠ .top) (pc : Pc)
    (hthreads : world.threads = Function.update state.world.threads handle thread)
    (hstanding : Standing order state.clock handle { state.clients handle with pc } thread) :
    Judged load (State.goto { state with world } handle pc) executions order noted := by
  have hself : (State.goto { state with world } handle pc).clients handle
      = { state.clients handle with pc } := Function.update_self ..
  refine hjudged.move handle rfl rfl (fun other hother => ⟨?_, ?_⟩) (by rw [hself])
    (fun hle => absurd (hjudged.outside handle hle) hne) ?_
  · exact Function.update_of_ne hother _ _
  · change world.threads other = _
    rw [hthreads, Function.update_of_ne hother]
  · rw [hself]
    change Standing order state.clock handle _ (world.threads handle)
    rw [hthreads, Function.update_self]
    exact hstanding

theorem Judged.accept (hjudged : Judged load state executions order noted) (handle : Nat)
    (id : UInt32) :
    Judged load { state with world := state.world.step (.accept handle id) } executions order noted := by
  rw [World.step]
  split
  · rename_i hphase
    refine hjudged.serve rfl ((hjudged.standing handle).rest ?_ rfl)
    rw [hphase]
    rfl
  · exact hjudged

theorem Judged.disconnect (hjudged : Judged load state executions order noted) (handle : Nat) :
    Judged load { state with world := state.world.step (.disconnect handle) } executions order noted := by
  rw [World.step]
  split
  · rename_i hphase
    refine hjudged.serve rfl ((hjudged.standing handle).rest ?_ rfl)
    rw [hphase]
    rfl
  · exact hjudged

theorem Judged.request (hjudged : Judged load state executions order noted) {handle : Nat}
    {args : List Bytes} (hstep : serverStep state (.request handle args) = some state') :
    Judged load state' executions order noted := by
  have hstanding := hjudged.standing handle
  unfold serverStep at hstep
  dsimp only at hstep
  split at hstep
  · rename_i inv hpc hphase
    split at hstep
    · rename_i hargs
      obtain rfl := Option.some.inj hstep
      simp only [Standing, hpc] at hstanding
      obtain ⟨hinv, -, hfresh⟩ := hstanding
      have hserve := serve_command (state.world.threads handle).client
        (seqOf (state.world.threads handle)) handle (state.clients handle).round
      rw [← hargs] at hserve
      have hthreads : (state.world.step (.request handle args)).threads
          = Function.update state.world.threads handle { state.world.threads handle with
            phase := .serving (resp.serve (state.world.threads handle).client
              (state.world.threads handle).conn args)
            request := some args, answers := [], logged := [] } := by
        simp only [World.step, hphase]
        rfl
      refine hjudged.serve_goto (by rw [hpc]; rintro ⟨⟩) _ hthreads ⟨hinv, ?_⟩
      exact .asks (congrArg Phase.serving hserve) (fun _ => rfl) hfresh
    · cases hstep
  · cases hstep

theorem Judged.send (hjudged : Judged load state executions order noted) {handle : Nat}
    (hlive : (state.world.threads handle).phase ≠ .closed →
      state.world.history.engine.isSome = true) :
    Judged load { state with world := state.world.step (.send handle) } executions order noted := by
  have hstanding := hjudged.standing handle
  rw [World.step, World.send]
  dsimp only
  split
  · rename_i op next hphase
    rw [hphase] at hlive
    obtain ⟨inv, hpc, hinv, hworking⟩ := hstanding.working (by rw [hphase]; rintro ⟨⟩)
    rw [if_pos (hlive (by rintro ⟨⟩))]
    refine hjudged.serve rfl ?_
    simp only [Standing, hpc]
    refine ⟨hinv, ?_⟩
    cases hworking with
    | asks hasks hnext hfresh =>
        rw [hphase] at hasks
        obtain ⟨rfl, rfl⟩ := Conv.apply.inj (Phase.serving.inj hasks)
        exact .waits rfl hnext hfresh
    | waits hwaits | has hwaits | ends hwaits =>
        rw [hphase] at hwaits
        cases hwaits
  · rename_i next hphase
    obtain ⟨inv, hpc, hinv, hworking⟩ := hstanding.working (by rw [hphase]; rintro ⟨⟩)
    cases hworking with
    | asks hother | waits hother | has hother | ends hother =>
        rw [hphase] at hother
        cases hother
  · exact hjudged

theorem Judged.receive (hjudged : Judged load state executions order noted) {handle : Nat}
    (hlive : (state.world.threads handle).phase ≠ .closed →
      state.world.history.engine.isSome = true) :
    Judged load { state with world := state.world.step (.receive handle) } executions order noted := by
  have hstanding := hjudged.standing handle
  rw [World.step, World.receive]
  dsimp only
  split
  · rename_i op next out hphase
    obtain ⟨inv, hpc, hinv, hworking⟩ := hstanding.working (by rw [hphase]; rintro ⟨⟩)
    refine hjudged.serve rfl ?_
    simp only [Standing, hpc]
    refine ⟨hinv, ?_⟩
    cases hworking with
    | has hhas hnext hdone =>
        rw [hphase] at hhas
        obtain ⟨rfl, rfl, hout⟩ := Phase.applying.inj hhas
        obtain rfl := Option.some.inj hout
        exact .ends (congrArg Phase.serving (hnext (some out))) hdone
    | asks hother | waits hother | ends hother =>
        rw [hphase] at hother
        cases hother
  · rename_i op next hphase
    rw [hphase] at hlive
    rw [if_pos (hlive (by rintro ⟨⟩))]
    exact hjudged
  · rename_i next count hphase
    obtain ⟨inv, hpc, hinv, hworking⟩ := hstanding.working (by rw [hphase]; rintro ⟨⟩)
    cases hworking with
    | asks hother | waits hother | has hother | ends hother =>
        rw [hphase] at hother
        cases hother
  · rename_i next hphase
    obtain ⟨inv, hpc, hinv, hworking⟩ := hstanding.working (by rw [hphase]; rintro ⟨⟩)
    cases hworking with
    | asks hother | waits hother | has hother | ends hother =>
        rw [hphase] at hother
        cases hother
  · exact hjudged

theorem Judged.reply (hjudged : Judged load state executions order noted) {handle : Nat}
    (hstep : serverStep state (.reply handle) = some state') :
    Judged load state' executions order noted := by
  have hstanding := hjudged.standing handle
  unfold serverStep at hstep
  dsimp only at hstep
  split at hstep
  · rename_i inv turn hpc hphase
    obtain rfl := Option.some.inj hstep
    simp only [Standing, hpc] at hstanding
    obtain ⟨hinv, hworking⟩ := hstanding
    cases hworking with
    | ends hends hdone =>
        rw [hphase] at hends
        obtain rfl := Conv.ret.inj (Phase.serving.inj hends)
        have hthreads : (state.world.step (.reply handle)).threads
            = Function.update state.world.threads handle { state.world.threads handle with
              conn := turn.conn, phase := if turn.close then .closed else .idle
              earlier := (state.world.threads handle).earlier
                ++ (state.world.threads handle).request.toList } := by
          simp only [World.step, World.reply, hphase]
          rfl
        refine hjudged.serve_goto (by rw [hpc]; rintro ⟨⟩) _ hthreads ⟨hinv, ?_, hdone⟩
        dsimp only
        split <;> rfl
    | asks hother | waits hother | has hother =>
        rw [hphase] at hother
        cases hother
  · cases hstep

/-- A command as it takes effect now. -/
def effectNow (state : State) (client : Nat) (action : Action) : Effect where
  client := client
  round := (state.clients client).round
  action := action
  time := state.clock

/-- A command takes effect. -/
theorem Judged.effect (hjudged : Judged load state executions order noted) {world : World resp}
    {handle : Nat} {thread : Thread resp} {action : Action} {execution : Execution resp}
    (hthreads : world.threads = Function.update state.world.threads handle thread)
    (hfresh : Fresh order handle (state.clients handle).round)
    (hvalid : valid action (reg executions) = true)
    (hreg : reg (executions ++ [execution]) = apply action (reg executions))
    (hstanding : Standing (order ++ [effectNow state handle action]) state.clock handle
      (state.clients handle) thread) :
    Judged load { state with world } (executions ++ [execution])
      (order ++ [effectNow state handle action]) noted where
  standing := by
    intro other
    dsimp only
    by_cases hother : other = handle
    · rw [hother, hthreads, Function.update_self]
      exact hstanding
    · rw [hthreads, Function.update_of_ne hother]
      refine (hjudged.standing other).mono (fun effect heffect hclient => ?_)
        (fun _ heffect => List.mem_append_left _ heffect) UInt64.le_rfl rfl rfl rfl
      rcases List.mem_append.mp heffect with hold | hnew
      · exact hold
      · rw [List.mem_singleton.mp hnew] at hclient
        exact absurd hclient.symm hother
  outside := hjudged.outside
  bound := by
    intro effect heffect
    rcases List.mem_append.mp heffect with hold | hnew
    · exact hjudged.bound effect hold
    · rw [List.mem_singleton.mp hnew]
      exact Nat.le_refl _
  keys := by
    rw [List.map_append, List.nodup_append]
    refine ⟨hjudged.keys, List.nodup_singleton _, ?_⟩
    intro key hkey last hlast hsame
    obtain ⟨effect, heffect, rfl⟩ := List.mem_map.mp hkey
    rw [List.mem_singleton.mp hlast] at hsame
    obtain ⟨hclient, hround⟩ := Prod.mk.inj hsame
    exact Nat.ne_of_lt (hfresh effect heffect hclient) hround
  times := by
    refine List.pairwise_append.mpr ⟨hjudged.times, List.pairwise_singleton _ _, ?_⟩
    intro earlier hearlier later hlater
    rw [List.mem_singleton.mp hlater]
    exact hjudged.past earlier hearlier
  past := by
    intro effect heffect
    rcases List.mem_append.mp heffect with hold | hnew
    · exact hjudged.past effect hold
    · rw [List.mem_singleton.mp hnew]
      exact UInt64.le_rfl
  legal := by
    rw [List.map_append, legal_append, ← hjudged.register]
    exact ⟨hjudged.legal, hvalid, trivial⟩
  register := by
    rw [List.map_append, List.foldl_append, ← hjudged.register]
    exact hreg
  ahead := hjudged.ahead
  pending := by
    intro effect heffect hnone
    rcases List.mem_append.mp heffect with hold | hnew
    · exact hjudged.pending effect hold hnone
    · rw [List.mem_singleton.mp hnew]
      rfl
  known := by
    intro effect heffect op hop
    rcases List.mem_append.mp heffect with hold | hnew
    · exact hjudged.known effect hold op hop
    · rw [List.mem_singleton.mp hnew] at hop
      exact absurd ((hjudged.ahead handle _ (Nat.le_refl _)).symm.trans hop) (by simp)
  history := by
    have hnone : noted (effectNow state handle action).key = none :=
      hjudged.ahead handle _ (Nat.le_refl _)
    rw [List.filterMap_append, List.filterMap_cons, hnone, List.filterMap_nil, List.append_nil]
    exact hjudged.history

/-- The op of a waiting connection is delivered. -/
theorem Judged.deliver (hjudged : Judged load state executions order noted) {handed : Nat}
    (hcontinues : state.world.Continues Resp.numbering (fun _ => ()) (fun _ _ => ()) handed executions)
    {engine : Engine KvStore} {handle call : Nat} {queue : List Job} {op : Op}
    {next : Option Output → Conv (Turn resp.Conn)} {clock ts inv : UInt64}
    (hengine : state.world.history.engine = some engine)
    (hphase : (state.world.threads handle).phase = .applying op next none)
    (hfresh : (dedup KvStore).fresh engine.toCore (ts, op))
    (hop : op = registerOp (state.world.threads handle).client (seqOf (state.world.threads handle))
      handle (state.clients handle).round)
    (hnext : Finishes (state.world.threads handle) (state.clients handle).round next)
    (hround : Fresh order handle (state.clients handle).round)
    (hpc : (state.clients handle).pc = .taken inv) (hinv : inv ≤ state.clock) :
    ∃ order', Judged load { state with
        world := World.deliver { state.world with clock, queue } engine Faults.clean ts
          ⟨handle, call, .apply op⟩ op }
      (executions ++ if engine.logs Faults.clean ts op then
        [⟨(state.world.threads handle).serving, (state.world.threads handle).answers, op⟩] else [])
      order' noted := by
  obtain ⟨out, after, disk, hdeliver⟩ := deliver_clean_ok engine state.world.history.disk ts op
  have hok : (engine.deliver Faults.clean state.world.history.disk ts op).1 = .ok out := by
    rw [hdeliver]
  obtain ⟨-, hout⟩ := World.output_of_deliver_ok hfresh hok
  have hvalue : out = ((stored StateMachine.default executions).apply op).2 := by
    rw [hout, ← hcontinues.serves.executes.live engine hengine]
    rfl
  have hlogs : engine.logs Faults.clean ts op = true := by
    simp [Engine.logs, applyDedup_of_fresh hfresh, AppendFault.completes, Faults.clean]
  obtain ⟨logged, hthreads⟩ := @World.threads_deliver_ok resp { state.world with clock, queue } engine
    Faults.clean ts ⟨handle, call, .apply op⟩ op next out hphase hok
  obtain ⟨hvalid, hreg⟩ := action_replyTo (stored StateMachine.default executions) _ _ handle _ hop
    rfl
  rw [← hvalue] at hvalid hreg
  rw [if_pos hlogs]
  refine ⟨_, hjudged.effect hthreads hround hvalid ?_ ?_⟩
  · rw [reg, stored_concat]
    exact hreg
  · simp only [Standing, hpc]
    refine ⟨hinv, .has rfl hnext ⟨_, List.mem_append_right _ (List.mem_singleton_self _), rfl, rfl,
      hinv, UInt64.le_rfl⟩⟩

/-- The executor delivers the op at the head of its queue. -/
theorem Judged.execute (hjudged : Judged load state executions order noted) {handed : Nat}
    (hcontinues : state.world.Continues Resp.numbering (fun _ => ()) (fun _ _ => ()) handed executions)
    (tick : UInt64) :
    ∃ order', Judged load { state with world := state.world.step (.execute Faults.clean tick) }
      (executions ++ state.world.executes (.execute Faults.clean tick)) order' noted := by
  rw [World.step, World.execute, World.executes]
  cases hengine : state.world.history.engine with
  | none =>
      rw [List.append_nil]
      exact ⟨order, hjudged⟩
  | some engine =>
      cases hqueue : state.world.queue with
      | nil =>
          rw [List.append_nil]
          exact ⟨order, hjudged⟩
      | cons job queue =>
          have hjob : job ∈ state.world.queue := by simp [hqueue]
          have hwired := hcontinues.serves.wired
          have hawaits := hwired.awaited job hjob
          obtain ⟨handle, call, req⟩ := job
          have hstanding := hjudged.standing handle
          cases req with
          | len =>
              obtain ⟨next, hphase⟩ := hawaits
              obtain ⟨inv, -, -, hworking⟩ := hstanding.working (by rw [hphase]; rintro ⟨⟩)
              cases hworking with
              | asks hother | waits hother | has hother | ends hother =>
                  rw [hphase] at hother
                  cases hother
          | apply op =>
              obtain ⟨next, hphase⟩ := hawaits
              have hfresh : engine.highWater op.client < op.seq :=
                hcontinues.serves.identities.fresh hwired hengine hjob rfl
              obtain ⟨inv, hpc, hinv, hworking⟩ := hstanding.working (by rw [hphase]; rintro ⟨⟩)
              cases hworking with
              | asks hother | has hother | ends hother =>
                  rw [hphase] at hother
                  cases hother
              | waits hwaits hnext hround =>
                  rw [hphase] at hwaits
                  obtain ⟨hop, rfl, -⟩ := Phase.applying.inj hwaits
                  exact hjudged.deliver hcontinues hengine hphase hfresh hop hnext hround hpc hinv

end Steps

/-! ### Runs -/

/-- The server's counters last, and a snapshot of what it holds fits the format: ids are handed out in
order, a connection's numbers do not wrap. What the clients ask for fits as it is. -/
def Lasts (world : World resp) : WorldEvent resp → Prop
  | .accept handle id => world.Admits Resp.numbering (.accept handle id)
  | .request handle args => world.SeqLeft Resp.numbering (.request handle args)
  | .send handle => world.SeqLeft Resp.numbering (.send handle)
  | .execute _ tick => ∀ record ∈ world.pending tick, ∀ engine ∈ world.history.engine,
      (engine.applyDedup record.1 record.2).2.Fits
  | .disconnect _ | .receive _ | .reply _ | .crash | .restart _ => True

instance (world : World resp) (event : WorldEvent resp) : Decidable (Lasts world event) := by
  cases event <;> unfold Lasts <;> infer_instance

/-- The event can happen, and the server lasts it. -/
def Admitted (load : Load) (state : State) (event : Event) : Prop :=
  Enabled load state event ∧ ∀ served ∈ event.served, Lasts state.world served

instance (load : Load) (state : State) (event : Event) : Decidable (Admitted load state event) :=
  inferInstanceAs (Decidable (_ ∧ _))

/-- The ops of the clients fit their records. -/
theorem loggable_registerOp (id : UInt32) (seq : UInt64) (client round : Nat) :
    (registerOp id seq client round).Loggable := by
  have hvalue := length_asBytes_showI64 (value client round)
  have hkey : KeyFits "reg" := by decide
  have hkeyLength : (asBytes "reg").length = 3 := by decide
  unfold registerOp
  split
  · refine ⟨⟨hkey, ?_⟩, ?_⟩
    · rw [ValueFits]
      omega
    · rw [PayloadFits, Op.encode]
      simp only [Op.key, Op.encodeBody, List.length_append, length_leBytes, length_lengthBytes,
        List.length_cons, List.length_nil]
      omega
  · refine ⟨hkey, ?_⟩
    rw [PayloadFits, Op.encode]
    simp only [Op.key, Op.encodeBody, List.length_append, length_leBytes, length_lengthBytes,
      List.length_cons, List.length_nil]
    omega

theorem admits_command (client round : Nat) : Resp.numbering.admits (command client round) = true := by
  have hset : (asBytes "SET").map asciiUpper ≠ asBytes "DEL" := by decide
  have hget : (asBytes "GET").map asciiUpper ≠ asBytes "DEL" := by decide
  have hsingle : ¬ Resp.DeletesSeveral (command client round) := by
    unfold command
    split
    · exact fun hdel => hset hdel.1
    · exact fun hdel => hget hdel.1
  exact (congrArg not (decide_eq_false hsingle)).trans rfl

section Runs

variable {load : Load} {state state' : State} {executions : List (Execution resp)} {order : List Effect}
  {noted : Nat × Nat → Option LinOp}

/-- What the executor delivers next is the op of a client's command. -/
theorem Judged.pending_eq (hjudged : Judged load state executions order noted) {handed : Nat}
    (hcontinues : state.world.Continues Resp.numbering (fun _ => ()) (fun _ _ => ()) handed executions)
    {tick : UInt64} {record : Record} (hrecord : record ∈ state.world.pending tick) :
    ∃ id seq client round, record.2 = registerOp id seq client round := by
  rw [World.pending] at hrecord
  split at hrecord
  · rename_i engine job queue hengine hqueue
    have hawaits := hcontinues.serves.wired.awaited job (by simp [hqueue])
    split at hrecord
    · rename_i op hreq
      rw [hreq] at hawaits
      obtain ⟨next, hphase⟩ := hawaits
      obtain ⟨inv, -, -, hworking⟩ :=
        (hjudged.standing job.handle).working (by rw [hphase]; rintro ⟨⟩)
      cases hworking with
      | asks hother | has hother | ends hother =>
          rw [hphase] at hother
          cases hother
      | waits hwaits =>
          rw [hphase] at hwaits
          obtain ⟨rfl, -⟩ := Phase.applying.inj hwaits
          obtain rfl := Option.some.inj hrecord
          exact ⟨_, _, _, _, rfl⟩
    · cases hrecord
  · cases hrecord

/-- What the clients ask for is within the limits by itself. -/
theorem Judged.persists (hjudged : Judged load state executions order noted) {handed : Nat}
    (hcontinues : state.world.Continues Resp.numbering (fun _ => ()) (fun _ _ => ()) handed executions)
    {event : WorldEvent resp} (hstep : serverStep state event = some state')
    (hlasts : Lasts state.world event) : state.world.Persists Resp.numbering event := by
  unfold serverStep at hstep
  cases event with
  | accept handle id => exact ⟨hlasts, trivial, trivial⟩
  | request handle args =>
      refine ⟨?_, hlasts, trivial⟩
      dsimp only at hstep
      split at hstep
      · split at hstep
        · rename_i hargs
          change Resp.numbering.admits args = true
          rw [hargs]
          exact admits_command _ _
        · cases hstep
      · cases hstep
  | send handle => exact ⟨trivial, hlasts, trivial⟩
  | execute faults tick =>
      dsimp only at hstep
      split at hstep
      · rename_i hclean
        refine ⟨trivial, trivial, fun record hrecord => ?_⟩
        obtain ⟨id, seq, client, round, hop⟩ := hjudged.pending_eq hcontinues hrecord
        obtain ⟨hfits, hpayload⟩ := loggable_registerOp id seq client round
        rw [← hop] at hfits hpayload
        rw [hclean]
        exact ⟨⟨trivial, by decide⟩, ⟨hfits, hlasts record hrecord⟩, hpayload⟩
      · cases hstep
  | disconnect handle | receive handle | reply handle => exact ⟨trivial, trivial, trivial⟩
  | crash | restart interval => cases hstep

theorem world_clientStep {client : Nat} (hstep : clientStep load state client = some state') :
    state'.world = state.world := by
  cases hpc : (state.clients client).pc with
  | top | answered inv reply | record op =>
      simp only [clientStep, hpc, Option.some.injEq] at hstep
      rw [← hstep]
      rfl
  | sent inv | taken inv | finished =>
      simp only [clientStep, hpc] at hstep
      cases hstep

theorem world_serverStep {event : WorldEvent resp} (hstep : serverStep state event = some state') :
    state'.world = state.world.step event := by
  unfold serverStep at hstep
  cases event with
  | request handle args =>
      dsimp only at hstep
      split at hstep
      · split at hstep <;> cases hstep
        rfl
      · cases hstep
  | reply handle =>
      dsimp only at hstep
      split at hstep <;> cases hstep
      rfl
  | execute faults tick =>
      dsimp only at hstep
      split at hstep <;> cases hstep
      rfl
  | accept handle id | disconnect handle | send handle | receive handle | crash | restart interval =>
      cases hstep <;> rfl

/-- **The step lemma for the harness and its server.** -/
theorem Judged.server (hjudged : Judged load state executions order noted) {handed : Nat}
    (hcontinues : state.world.Continues Resp.numbering (fun _ => ()) (fun _ _ => ()) handed executions)
    {event : WorldEvent resp} (hstep : serverStep state event = some state') :
    ∃ order', Judged load state' (executions ++ state.world.executes event) order' noted := by
  have hsame : ∀ {next : State}, Judged load next executions order noted →
      Judged load next (executions ++ []) order noted := by
    intro next hnext
    rwa [List.append_nil]
  have hlive : ∀ handle, (state.world.threads handle).phase ≠ .closed →
      state.world.history.engine.isSome = true :=
    fun handle => hcontinues.attended.live hcontinues.serves.wired
  cases event with
  | accept handle id =>
      cases hstep
      exact ⟨order, hsame (hjudged.accept handle id)⟩
  | disconnect handle =>
      cases hstep
      exact ⟨order, hsame (hjudged.disconnect handle)⟩
  | request handle args => exact ⟨order, hsame (hjudged.request hstep)⟩
  | send handle =>
      cases hstep
      exact ⟨order, hsame (hjudged.send (hlive handle))⟩
  | execute faults tick =>
      unfold serverStep at hstep
      dsimp only at hstep
      split at hstep
      · rename_i hclean
        cases hstep
        rw [hclean]
        exact hjudged.execute hcontinues tick
      · cases hstep
  | receive handle =>
      cases hstep
      exact ⟨order, hsame (hjudged.receive (hlive handle))⟩
  | reply handle => exact ⟨order, hsame (hjudged.reply hstep)⟩
  | crash | restart interval => cases hstep

/-- When the clients have ended, all that has taken effect is recorded, and the checker finds the order
in which it has. -/
theorem Judged.accepts (hjudged : Judged load state executions order noted) (hjoined : Joined load state) :
    verdict state = true := by
  have hnoted : ∀ effect ∈ order, ∃ op, noted effect.key = some op := by
    intro effect heffect
    refine Option.ne_none_iff_exists'.mp fun hnone => ?_
    have hround := hjudged.pending effect heffect hnone
    have hstanding := hjudged.standing effect.client
    rcases Nat.lt_or_ge effect.client load.clients with hclient | hclient
    · simp only [Standing, hjoined effect.client hclient] at hstanding
      exact absurd (hstanding.2 effect heffect rfl) (by omega)
    · simp only [Standing, hjudged.outside effect.client hclient] at hstanding
      exact absurd (hstanding.2 effect heffect rfl) (by omega)
  have hinterval : ∀ op ∈ state.history, op.inv ≤ op.res := by
    intro op hop
    obtain ⟨effect, heffect, hrecorded⟩ :=
      List.mem_filterMap.mp (hjudged.history.mem_iff.mp hop)
    obtain ⟨-, hinv, hreturn⟩ := hjudged.known effect heffect op hrecorded
    exact UInt64.le_trans hinv hreturn
  rw [verdict, isLinearizable_eq_true hinterval, ordered_range_iff]
  refine ⟨order.filterMap fun effect => noted effect.key, hjudged.history.symm, ?_, ?_⟩
  · refine List.pairwise_filterMap.mpr (hjudged.times.imp_of_mem ?_)
    intro earlier later hearlier hlater htime first hfirst last hlast hlt
    obtain ⟨-, hinv, -⟩ := hjudged.known earlier hearlier first hfirst
    obtain ⟨-, -, hreturn⟩ := hjudged.known later hlater last hlast
    exact UInt64.not_lt.mpr (UInt64.le_trans hinv (UInt64.le_trans htime hreturn)) hlt
  · have hactions : (order.filterMap fun effect => noted effect.key).map LinOp.action
        = order.map Effect.action := by
      rw [List.map_filterMap, ← List.filterMap_eq_map]
      refine List.filterMap_congr fun effect heffect => ?_
      obtain ⟨op, hop⟩ := hnoted effect heffect
      rw [hop, Option.map_some, (hjudged.known effect heffect op hop).1]
      rfl
    rw [readsLatest_iff_legal, hactions]
    exact hjudged.legal

/-- What a run of the harness is to the server. -/
def servedBy (events : List Event) : List (WorldEvent resp) := events.filterMap Event.served

variable {interval : UInt64} {before : List (WorldEvent resp)} {events : List Event}

/-- **The run lemma.** -/
theorem judged_run
    (hbefore : Run.Guarded World.step (World.Persists Resp.numbering) (World.start interval) before)
    (hquiet : ∀ handle, ((Run.run World.step (World.start interval : World resp) before).threads
      handle).phase.conv = none)
    (hzero : reg (Run.trace World.step World.executes (World.start interval) before) = 0)
    (hrun : Run.Guarded (step load) (Admitted load)
      (State.start (Run.run World.step (World.start interval) before)) events)
    (hids : (before ++ servedBy events).countP WorldEvent.accepts < 2 ^ 32 - 1) :
    (Run.run (step load) (State.start (Run.run World.step (World.start interval) before)) events).world
        = Run.run World.step (World.start interval) (before ++ servedBy events)
      ∧ Run.Guarded World.step (World.Persists Resp.numbering) (World.start interval)
        (before ++ servedBy events)
      ∧ ∃ order noted, Judged load
        (Run.run (step load) (State.start (Run.run World.step (World.start interval) before)) events)
        (Run.trace World.step World.executes (World.start interval) (before ++ servedBy events))
        order noted := by
  induction events using List.reverseRecOn with
  | nil =>
      rw [servedBy, List.filterMap_nil, List.append_nil]
      refine ⟨rfl, hbefore, [], fun _ => none, ?_⟩
      refine ⟨fun client => ⟨hquiet client, fun _ heffect => absurd heffect List.not_mem_nil⟩,
        fun _ _ => rfl, ?_, List.nodup_nil, List.Pairwise.nil, ?_, trivial, hzero, fun _ _ _ => rfl,
        ?_, ?_, List.Perm.refl []⟩
      all_goals
        intro effect heffect
        cases heffect
  | append_singleton events event ih =>
      obtain ⟨hevents, ⟨henabled, hlasts⟩, -⟩ := (Run.guarded_append _).mp hrun
      have hsplit : before ++ servedBy (events ++ [event])
          = before ++ servedBy events ++ event.served.toList := by
        rw [servedBy, servedBy, List.filterMap_append, ← List.append_assoc]
        cases event <;> rfl
      rw [hsplit] at hids ⊢
      have hless : (before ++ servedBy events).countP WorldEvent.accepts < 2 ^ 32 - 1 := by
        rw [List.countP_append] at hids
        omega
      obtain ⟨hworld, hguarded, order, noted, hjudged⟩ := ih hevents hless
      have hcontinues : World.Continues Resp.numbering (fun _ => ()) (fun _ _ => ()) _ _ _ :=
        World.continues_run (fun _ _ _ _ _ _ => rfl) hguarded hless
      rw [← hworld] at hcontinues
      obtain ⟨next, hnext⟩ := Option.isSome_iff_exists.mp henabled
      rw [Run.run_append, Run.run_append, Run.trace_append, Run.guarded_append, ← hworld]
      generalize Run.run (step load) (State.start _) events = state at *
      rw [Run.run_cons, Run.run_nil, step, hnext, Option.getD_some]
      cases event with
      | tick time =>
          simp only [LinCheck.next] at hnext
          split at hnext
          · rename_i htime
            cases hnext
            refine ⟨rfl, ⟨hguarded, trivial⟩, order, noted, ?_⟩
            change Judged load _ (_ ++ []) order noted
            rw [List.append_nil]
            exact hjudged.tick htime
          · cases hnext
      | client client =>
          simp only [LinCheck.next] at hnext
          split at hnext
          · rename_i hclient
            obtain ⟨noted', hjudged'⟩ := hjudged.client hclient hnext
            refine ⟨world_clientStep hnext, ⟨hguarded, trivial⟩, order, noted', ?_⟩
            change Judged load _ (_ ++ []) order noted'
            rw [List.append_nil]
            exact hjudged'
          · cases hnext
      | server event =>
          obtain ⟨order', hjudged'⟩ := hjudged.server hcontinues hnext
          have hpersists := hjudged.persists hcontinues hnext (hlasts event rfl)
          refine ⟨world_serverStep hnext, ⟨hguarded, hpersists, trivial⟩, order', noted, ?_⟩
          change Judged load _ (_ ++ (state.world.executes event ++ [])) order' noted
          rw [List.append_nil]
          exact hjudged'

/-- **The check of the server passes.** In every run of the harness against the server, on whatever
directory with nothing in the register, however the clients, the connections, the executor and the
clock interleave: when the clients have ended, the checker accepts what they have recorded. -/
theorem verdict_accepts
    (hbefore : Run.Guarded World.step (World.Persists Resp.numbering) (World.start interval) before)
    (hquiet : ∀ handle, ((Run.run World.step (World.start interval : World resp) before).threads
      handle).phase.conv = none)
    (hzero : reg (Run.trace World.step World.executes (World.start interval) before) = 0)
    (hrun : Run.Guarded (step load) (Admitted load)
      (State.start (Run.run World.step (World.start interval) before)) events)
    (hids : (before ++ servedBy events).countP WorldEvent.accepts < 2 ^ 32 - 1)
    (hjoined : Joined load
      (Run.run (step load) (State.start (Run.run World.step (World.start interval) before)) events)) :
    verdict (Run.run (step load) (State.start (Run.run World.step (World.start interval) before)) events)
      = true := by
  obtain ⟨-, -, order, noted, hjudged⟩ := judged_run hbefore hquiet hzero hrun hids
  exact hjudged.accepts hjoined

/-! ### The harness -/

/-- A connection that serves nothing else is quiet again when the register is written. -/
theorem quiet_initialise {handle : Nat}
    (hquiet : ((Run.run World.step (World.start interval : World resp) (initialise handle)).threads
      handle).phase.conv = none) (other : Nat) :
    ((Run.run World.step (World.start interval : World resp) (initialise handle)).threads
      other).phase.conv = none := by
  by_cases hother : other = handle
  · rw [hother]
    exact hquiet
  · have hclosed : ((Run.run World.step (World.start interval : World resp)
        (initialise handle)).threads other).phase = .closed := by
      refine World.closed_run rfl fun event hevent id hsame => ?_
      rw [hsame] at hevent
      simp [initialise, hother] at hevent
    rw [hclosed]
    rfl

def four : List Nat := [0, 1, 2, 3]

/-- A round of all clients at once; the commands are executed in the opposite order. -/
def allAtOnce (round : Nat) : List Event :=
  four.map Event.client ++ [.tick (UInt64.ofNat (10 * round + 1))]
    ++ (four.map fun client => .server (.request client (command client round)))
    ++ (four.reverse.map fun client => .server (.send client))
    ++ (four.map fun _ => .server (.execute Faults.clean 0))
    ++ (four.map fun client => .server (.receive client))
    ++ (four.map fun client => .server (.reply client))
    ++ [.tick (UInt64.ofNat (10 * round + 2))] ++ four.map Event.client ++ four.map Event.client

def harnessRun : List Event :=
  (four.map fun client => .server (.accept client (UInt32.ofNat client + 2)))
    ++ (List.range 9).flatMap allAtOnce ++ four.map Event.client

theorem verdict_accepts_harnessRun :
    verdict (Run.run (step Load.harness)
      (State.start (Run.run World.step (World.start 1000) (initialise 4))) harnessRun) = true :=
  verdict_accepts (by decide +kernel) (quiet_initialise (by decide +kernel)) (by decide +kernel)
    (by decide +kernel) (by decide +kernel) (by decide +kernel)

end Runs

end LinCheck

end OneBarrier
