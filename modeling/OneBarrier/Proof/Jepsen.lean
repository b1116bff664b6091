import OneBarrier.Jepsen
import OneBarrier.Proof.LinCheck

/-!
# No acknowledged write is lost

A write that was acknowledged has been executed, and the executions of all processes account for the
store of the last one. The writes of one key are all of one value, so what is read back is that value.
-/

namespace OneBarrier

namespace Conv

variable {α : Type} {op : Op} {result : Option Output → α}

/-- A conversation of one call has no other. -/
theorem reaches_single {answers : List (Op × Option Output)} {other : Op}
    {next : Option Output → Conv α}
    (hreaches : (apply op fun out => ret (result out)).Reaches answers (.apply other next)) :
    other = op := by
  rcases reaches_apply hreaches with ⟨-, hsame⟩ | ⟨answer, rest, -, hrest⟩
  · cases hsame
    rfl
  · obtain ⟨-, hsame⟩ := reaches_ret hrest
    cases hsame

theorem ends_single {answers : List (Op × Option Output)} {value : α}
    (hends : (apply op fun out => ret (result out)).Ends answers value) :
    ∃ out, answers = [(op, out)] ∧ value = result out := by
  obtain ⟨out, rest, rfl, rfl, rfl⟩ := hends
  exact ⟨out, rfl, rfl⟩

end Conv

theorem Phase.conv_answer {frontend : Frontend} (phase : Phase frontend) (out : Output) :
    (phase.answer out).conv = phase.conv := by
  cases phase <;> rfl

theorem Phase.conv_answerLen {frontend : Frontend} (phase : Phase frontend) (count : Nat) :
    (phase.answerLen count).conv = phase.conv := by
  cases phase <;> rfl

namespace World

variable {frontend : Frontend} {world : World frontend} {handle : Nat}

theorem conv_update {other : Nat} {thread : Thread frontend}
    (hkeep : thread.phase.conv ≠ none → (world.threads other).phase.conv ≠ none
      ∧ thread.request = (world.threads other).request)
    (hconv : (Function.update world.threads other thread handle).phase.conv ≠ none) :
    (world.threads handle).phase.conv ≠ none
      ∧ (Function.update world.threads other thread handle).request
        = (world.threads handle).request := by
  by_cases hsame : handle = other
  · rw [hsame, Function.update_self] at hconv ⊢
    exact hkeep hconv
  · rw [Function.update_of_ne hsame] at hconv ⊢
    exact ⟨hconv, rfl⟩

/-- A connection at work on a request has been at work on it before, unless the step takes the
request. -/
theorem conv_step {event : WorldEvent frontend} (hevent : ∀ request, event ≠ .request handle request) :
    ((world.step event).threads handle).phase.conv ≠ none →
      (world.threads handle).phase.conv ≠ none
        ∧ ((world.step event).threads handle).request = (world.threads handle).request := by
  cases event with
  | accept other id =>
      rw [World.step]
      split
      · exact conv_update fun hconv => absurd rfl hconv
      · exact fun hconv => ⟨hconv, rfl⟩
  | disconnect other =>
      rw [World.step]
      split
      · exact conv_update fun hconv => absurd rfl hconv
      · exact fun hconv => ⟨hconv, rfl⟩
  | request other request =>
      have hne : handle ≠ other := by
        rintro rfl
        exact hevent request rfl
      rw [World.step]
      split
      · simp only [World.set, Function.update_of_ne hne]
        exact fun hconv => ⟨hconv, trivial⟩
      · exact fun hconv => ⟨hconv, rfl⟩
  | send other =>
      rw [World.step, World.send]
      dsimp only
      split
      · rename_i hphase
        split
        all_goals
          refine conv_update fun _ => ⟨?_, rfl⟩
          rw [hphase]
          rintro ⟨⟩
      · rename_i hphase
        split
        all_goals
          refine conv_update fun _ => ⟨?_, rfl⟩
          rw [hphase]
          rintro ⟨⟩
      · exact fun hconv => ⟨hconv, rfl⟩
  | receive other =>
      rw [World.step, World.receive]
      dsimp only
      split
      · rename_i hphase
        refine conv_update fun _ => ⟨?_, rfl⟩
        rw [hphase]
        rintro ⟨⟩
      · rename_i hphase
        split
        · exact fun hconv => ⟨hconv, rfl⟩
        · refine conv_update fun _ => ⟨?_, rfl⟩
          rw [hphase]
          rintro ⟨⟩
      · rename_i hphase
        refine conv_update fun _ => ⟨?_, rfl⟩
        rw [hphase]
        rintro ⟨⟩
      · rename_i hphase
        split
        · exact fun hconv => ⟨hconv, rfl⟩
        · refine conv_update fun _ => ⟨?_, rfl⟩
          rw [hphase]
          rintro ⟨⟩
      · exact fun hconv => ⟨hconv, rfl⟩
  | reply other =>
      rw [World.step, World.reply]
      dsimp only
      split
      · refine conv_update fun hconv => absurd ?_ hconv
        dsimp only
        split <;> rfl
      · exact fun hconv => ⟨hconv, rfl⟩
  | execute faults tick =>
      rw [World.step, World.execute]
      split
      · rename_i engine job queue hengine hqueue
        split
        · rename_i op hreq
          obtain ⟨phase, logged, hthread, hcases⟩ := threads_deliver
            { world with clock := world.clock + 1, queue } engine faults (max (world.clock + 1) tick)
            job op handle
          rw [hthread]
          rcases hcases with hphase | ⟨hphase, -⟩ | ⟨-, out, hphase, -⟩
          · rw [hphase]
            exact fun hconv => absurd rfl hconv
          · rw [hphase]
            exact fun hconv => ⟨hconv, rfl⟩
          · rw [hphase]
            dsimp only
            rw [Phase.conv_answer]
            exact fun hconv => ⟨hconv, rfl⟩
        · refine conv_update fun hconv => ⟨?_, rfl⟩
          rwa [Phase.conv_answerLen] at hconv
      · exact fun hconv => ⟨hconv, rfl⟩
  | crash => exact fun hconv => absurd rfl hconv
  | restart interval =>
      rw [World.step]
      split <;> exact fun hconv => ⟨hconv, rfl⟩

/-- An execution is for a connection that is at work. -/
theorem busy_of_executes {mayFail : Op → Prop} (hwired : world.Wired mayFail)
    {event : WorldEvent frontend} {execution : Execution frontend}
    (hexecution : execution ∈ world.executes event) :
    ∃ handle, execution.serving = (world.threads handle).serving
      ∧ (world.threads handle).phase.conv ≠ none := by
  obtain ⟨engine, faults, tick, job, queue, op, -, -, hqueue, hreq, -, rfl, -⟩ :=
    executes_cases hexecution
  have hawaits := hwired.awaited job (by simp [hqueue])
  rw [hreq] at hawaits
  obtain ⟨next, hphase⟩ := hawaits
  refine ⟨job.handle, rfl, ?_⟩
  rw [hphase]
  rintro ⟨⟩

/-- What is new when a request is taken. -/
theorem threads_request (hphase : (world.threads handle).phase = .idle) (request : frontend.Request) :
    ∃ thread, (world.step (.request handle request)).threads
        = Function.update world.threads handle thread
      ∧ thread.request = some request ∧ (world.step (.request handle request)).replies = world.replies := by
  simp only [World.step, hphase]
  exact ⟨_, rfl, rfl, rfl⟩

/-- What is new when a reply is written. -/
theorem threads_reply {turn : Turn frontend.Conn}
    (hphase : (world.threads handle).phase = .serving (.ret turn)) :
    ((world.step (.reply handle)).threads handle).phase.conv = none
      ∧ ∃ served : Served frontend, (world.step (.reply handle)).replies = world.replies ++ [served]
        ∧ served.request = (world.threads handle).request ∧ served.output = turn.output := by
  simp only [World.step, World.reply, hphase, World.set, Function.update_self]
  refine ⟨?_, _, rfl, rfl, rfl⟩
  split <;> rfl

end World

namespace Jepsen

open Wire Utf8 Text AppJepsen

/-! ### Requests and replies -/

/-- The key a client writes determines the value. -/
theorem val_of_key {client round other turn : Nat} (hkey : key client round = key other turn) :
    val client round = val other turn := by
  have htail := congrArg String.toList hkey
  simp only [key, String.toList_append, List.append_assoc, List.append_right_inj] at htail
  apply String.toList_injective
  simp only [val, String.toList_append, List.append_assoc, htail]

theorem notMem_val (client round : Nat) : '\r' ∉ (val client round).toList := by
  simp only [val, String.toList_append, List.mem_append, not_or]
  exact ⟨⟨⟨by decide, notMem_toString client⟩, by decide⟩, notMem_toString round⟩

/-- What is read of the reply to a read. -/
theorem get_readReply {value : String} (hvalue : '\r' ∉ value.toList) :
    get (Resp.readReply (some (.bytes (some (asBytes value))))) = some value := by
  obtain ⟨digit, digits, hdigits, hminus, -⟩ := toDigits_cons (asBytes value).length
  rw [← toList_toString_nat] at hdigits
  have hreply : Resp.readReply (some (.bytes (some (asBytes value))))
      = asBytes ("$" ++ toString (asBytes value).length ++ "\r\n" ++ value ++ "\r\n") := by
    simp only [Resp.readReply, Resp.Reply.toBytes, asBytes_append]
  have htext : ("$" ++ toString (asBytes value).length ++ "\r\n" ++ value ++ "\r\n").toList
      = ('$' :: (toString (asBytes value).length).toList)
        ++ '\r' :: '\n' :: (value.toList ++ '\r' :: '\n' :: []) := by
    simp only [String.toList_append]
    simp
  have hmark : '\r' ∉ '$' :: (toString (asBytes value).length).toList := by
    rw [List.mem_cons, not_or]
    exact ⟨by decide, notMem_toString _⟩
  rw [hreply, get, fromUtf8Lossy_asBytes, htext, if_neg, splitCrlf_append hmark,
    splitCrlf_append hvalue]
  · exact congrArg some (String.ofList_toList)
  · intro hstarts
    rw [hdigits] at hstarts
    have hhead := List.isPrefixOf_iff_prefix.mp hstarts
    rw [List.cons_append, List.cons_append] at hhead
    obtain ⟨-, htail⟩ := List.cons_prefix_cons.mp hhead
    exact hminus (List.cons_prefix_cons.mp htail).1.symm

theorem doSet_unavailable : doSet (Resp.writeReply none) = false := by decide

/-! ### Executions -/

section Executions

variable {γ : Type} {view : resp.Conn → γ} {line : γ → resp.Request → γ} {execution : Execution resp}
  {executions : List (Execution resp)}

theorem kind_of_set (hfollows : execution.Follows view line) {key val : String}
    (hrequest : execution.serving.request = some (setRequest key val)) :
    execution.op.kind = .set key (asBytes val) := by
  obtain ⟨-, request, next, hsame, hreaches⟩ := hfollows
  obtain rfl := Option.some.inj (hrequest.symm.trans hsame)
  have hserve := Resp.serve_set execution.serving.client execution.serving.conn key (asBytes val)
  change (Resp.serve _ _ (setRequest key val)).Reaches _ _ at hreaches
  rw [setRequest, hserve] at hreaches
  rw [Conv.reaches_single hreaches]

theorem kind_of_get (hfollows : execution.Follows view line) {key : String}
    (hrequest : execution.serving.request = some (getRequest key)) :
    execution.op.kind = .get key := by
  obtain ⟨-, request, next, hsame, hreaches⟩ := hfollows
  obtain rfl := Option.some.inj (hrequest.symm.trans hsame)
  have hserve := Resp.serve_get execution.serving.client execution.serving.conn key
  change (Resp.serve _ _ (getRequest key)).Reaches _ _ at hreaches
  rw [getRequest, hserve] at hreaches
  rw [Conv.reaches_single hreaches]

/-- The op writes a key of the harness. -/
def Writes (op : Op) : Prop :=
  ∃ client round, op.kind = .set (key client round) (asBytes (val client round))

def Reads (op : Op) : Prop := ∃ key, op.kind = .get key

/-- A key that has been written holds its value, whatever the harness has written and read besides. -/
theorem stored_val (hops : ∀ execution ∈ executions, Writes execution.op ∨ Reads execution.op)
    {client round : Nat} (hwritten : ∃ execution ∈ executions,
      execution.op.kind = .set (key client round) (asBytes (val client round))) (initial : KvStore) :
    (stored initial executions).map[key client round]? = some (asBytes (val client round)) := by
  induction executions using List.reverseRecOn with
  | nil =>
      obtain ⟨execution, hexecution, -⟩ := hwritten
      cases hexecution
  | append_singleton before last ih =>
      obtain ⟨execution, hexecution, hkind⟩ := hwritten
      have hbefore : execution ∈ before → (stored initial before).map[key client round]?
          = some (asBytes (val client round)) := fun hmem =>
        ih (fun other hother => hops other (List.mem_append_left _ hother)) ⟨execution, hmem, hkind⟩
      rw [stored_concat]
      rw [List.mem_append, List.mem_singleton] at hexecution
      rcases hops last (List.mem_append_right _ (List.mem_singleton_self last)) with
        ⟨other, turn, hlast⟩ | ⟨read, hlast⟩
      · rw [KvStore.apply, hlast]
        dsimp only
        rw [Std.ExtTreeMap.getElem?_insert]
        split
        · rename_i hsame
          rw [val_of_key (Std.LawfulEqCmp.compare_eq_iff_eq.mp hsame)]
        · rename_i hother
          rcases hexecution with hold | rfl
          · exact hbefore hold
          · rw [hlast] at hkind
            refine absurd ?_ hother
            rw [(OpKind.set.inj hkind).1]
            exact Std.LawfulEqCmp.compare_eq_iff_eq.mpr rfl
      · rw [KvStore.apply, hlast]
        rcases hexecution with hold | rfl
        · exact hbefore hold
        · rw [hlast] at hkind
          cases hkind

end Executions

/-! ### Connections -/

/-- What a client waits for. -/
def Client.asked (number : Nat) (client : Client) : Option (List Bytes) :=
  match client.pc with
  | .waiting => some (setRequest (key number client.round) (val number client.round))
  | .top | .finished => none

def Stage.asked : Stage → Option (List Bytes)
  | .verify _ ((key, _) :: _) true => some (getRequest key)
  | _ => none

theorem Stage.asked_idle (conn : Nat) (left : List (String × String)) :
    (Stage.verify conn left false).asked = none := by
  cases left <;> rfl

/-- The connection of a client, or of the main thread. -/
def State.conn (state : State) : Option Nat → Option Nat
  | some client => (state.clients client).conn
  | none => state.stage.conn

def State.asked (state : State) : Option Nat → Option (List Bytes)
  | some client => (state.clients client).asked client
  | none => state.stage.asked

/-- The words are a request of the harness. Keys are read only when they are not written any more. -/
def Known (stage : Stage) (words : List Bytes) : Prop :=
  (∃ client round, words = setRequest (key client round) (val client round))
    ∨ stage ≠ .load ∧ ∃ key, words = getRequest key

/-- Nothing is under way over the connection. -/
def Quiet (state : State) (conn : Nat) : Prop :=
  state.channels conn = .quiet ∧ (state.world.threads conn).phase.conv = none

/-- The words are on the way, or the server is at work on them, or its reply is on the way. -/
def Waiting (state : State) (conn : Nat) (words : List Bytes) : Prop :=
  match state.channels conn with
  | .quiet => (state.world.threads conn).phase.conv ≠ none →
      (state.world.threads conn).request = some words
  | .request asked => asked = words ∧ (state.world.threads conn).phase.conv = none
  | .reply bytes => (state.world.threads conn).phase.conv = none
      ∧ ∃ reply ∈ state.world.replies, reply.request = some words ∧ reply.output = bytes

/-- How things are with the connection of somebody who waits for this. -/
def At (state : State) (conn : Nat) (asked : Option (List Bytes)) : Prop :=
  match asked with
  | none => Quiet state conn
  | some words => Waiting state conn words

/-- Everybody has a connection of their own, and what is under way is what they have asked for. -/
structure Connected (load : Load) (state : State) : Prop where
  fresh : ∀ conn, state.opened ≤ conn →
    state.channels conn = .quiet ∧ (state.world.threads conn).phase = .closed
  below : ∀ party conn, state.conn party = some conn → conn < state.opened
  apart : ∀ party other conn, state.conn party = some conn → state.conn other = some conn →
    party = other
  parties : ∀ party conn, state.conn party = some conn → At state conn (state.asked party)
  sent : ∀ conn words, state.channels conn = .request words → Known state.stage words
  taken : ∀ conn, ∀ words : List Bytes, (state.world.threads conn).phase.conv ≠ none →
    (state.world.threads conn).request = some words → Known state.stage words
  outside : ∀ client, load.clients ≤ client → (state.clients client).conn = none
  finished : ∀ client, (state.clients client).pc = .finished → (state.clients client).conn = none

theorem Known.mono {stage later : Stage} {words : List Bytes} (hknown : Known stage words)
    (hlater : stage ≠ .load → later ≠ .load) : Known later words := by
  rcases hknown with hwrite | ⟨hstage, hread⟩
  · exact .inl hwrite
  · exact .inr ⟨hlater hstage, hread⟩

section Connections

variable {load : Load} {state next : State} {conn : Nat} {asked : Option (List Bytes)}

/-- A step of the server that takes no request from the connection changes nothing there. -/
theorem At.step (hat : At state conn asked) {event : WorldEvent resp}
    (hevent : ∀ request, event ≠ .request conn request) :
    At { state with world := state.world.step event } conn asked := by
  have hconv := @World.conv_step _ state.world conn event hevent
  have hrest : (state.world.threads conn).phase.conv = none →
      ((state.world.step event).threads conn).phase.conv = none := by
    intro hnone
    by_contra hbusy
    exact (hconv hbusy).1 hnone
  have hreplies : ∀ reply ∈ state.world.replies, reply ∈ (state.world.step event).replies := by
    intro reply hreply
    rcases World.replies_step event with hsame | ⟨handle, turn, -, -, hmore⟩
    · rwa [hsame]
    · rw [hmore]
      exact List.mem_append_left _ hreply
  cases asked with
  | none => exact ⟨hat.1, hrest hat.2⟩
  | some words =>
      unfold At Waiting at hat ⊢
      dsimp only at hat ⊢
      split
      · rename_i hchannel
        rw [hchannel] at hat
        intro hbusy
        obtain ⟨hbefore, hrequest⟩ := hconv hbusy
        rw [hrequest]
        exact hat hbefore
      · rename_i hchannel
        rw [hchannel] at hat
        exact ⟨hat.1, hrest hat.2⟩
      · rename_i hchannel
        rw [hchannel] at hat
        obtain ⟨hnone, reply, hreply, hwords⟩ := hat
        exact ⟨hrest hnone, reply, hreplies reply hreply, hwords⟩

/-- What happens on other connections does not matter. -/
theorem At.frame (hat : At state conn asked)
    (hthread : next.world.threads conn = state.world.threads conn)
    (hreplies : ∀ reply ∈ state.world.replies, reply ∈ next.world.replies)
    (hchannel : next.channels conn = state.channels conn) : At next conn asked := by
  cases asked with
  | none =>
      unfold At Quiet at hat ⊢
      rwa [hthread, hchannel]
  | some words =>
      unfold At Waiting at hat ⊢
      dsimp only at hat ⊢
      rw [hthread, hchannel]
      split
      · rename_i hquiet
        rwa [hquiet] at hat
      · rename_i hrequest
        rwa [hrequest] at hat
      · rename_i hreply
        rw [hreply] at hat
        obtain ⟨hnone, reply, hmem, hwords⟩ := hat
        exact ⟨hnone, reply, hreplies reply hmem, hwords⟩

/-- A request is sent over a connection on which the server is not at work. -/
theorem at_request (hnone : (state.world.threads conn).phase.conv = none) (words : List Bytes) :
    At (state.put conn (.request words)) conn (some words) := by
  unfold At Waiting
  simp only [State.put, Function.update_self]
  exact ⟨trivial, hnone⟩

/-- A message is put on the connection somebody holds, and on no other. -/
theorem channels_put {held : Option Nat} (hheld : held = some conn) (channel : Channel) (other : Nat)
    (hother : held ≠ some other) : (state.put conn channel).channels other = state.channels other := by
  refine Function.update_of_ne (fun hsame => hother ?_) _ _
  rw [hsame]
  exact hheld

theorem sent_put {held : Option Nat} (hheld : held = some conn) {channel : Channel} {stage : Stage}
    (hsent : ∀ words, channel = .request words → Known stage words) (other : Nat)
    (words : List Bytes) (hother : held = some other)
    (hwords : (state.put conn channel).channels other = .request words) : Known stage words := by
  obtain rfl := Option.some.inj (hheld.symm.trans hother)
  exact hsent words ((Function.update_self ..).symm.trans hwords)

theorem at_quiet (hnone : (state.world.threads conn).phase.conv = none) :
    At (state.put conn .quiet) conn none :=
  ⟨Function.update_self .., hnone⟩

/-- What is known of a reply that has come. -/
theorem at_reply {words : List Bytes} {bytes : Bytes} (hat : At state conn (some words))
    (hchannel : state.channels conn = .reply bytes) :
    (state.world.threads conn).phase.conv = none
      ∧ ∃ reply ∈ state.world.replies, reply.request = some words ∧ reply.output = bytes := by
  unfold At Waiting at hat
  rw [hchannel] at hat
  exact hat

theorem At.congr (hat : At state conn asked) (hworld : next.world = state.world)
    (hchannel : next.channels conn = state.channels conn) : At next conn asked :=
  hat.frame (by rw [hworld]) (by rw [hworld]; exact fun _ hreply => hreply) hchannel

/-- A step of a client, or of the main thread, on its own connection. -/
theorem Connected.change (hconnected : Connected load state) (party : Option Nat)
    (hworld : next.world = state.world) (hopened : next.opened = state.opened)
    (hstage : state.stage ≠ .load → next.stage ≠ .load)
    (hothers : ∀ other, other ≠ party → next.conn other = state.conn other
      ∧ next.asked other = state.asked other)
    (hchannels : ∀ conn, state.conn party ≠ some conn → next.channels conn = state.channels conn)
    (hconn : ∀ conn, next.conn party = some conn → conn < state.opened
      ∧ (∀ other, other ≠ party → state.conn other ≠ some conn) ∧ At next conn (next.asked party))
    (hsent : ∀ conn words, state.conn party = some conn → next.channels conn = .request words →
      Known next.stage words)
    (houtside : ∀ client, load.clients ≤ client → (next.clients client).conn = none)
    (hfinished : ∀ client, (next.clients client).pc = .finished →
      (next.clients client).conn = none) : Connected load next where
  fresh := by
    intro conn hle
    rw [hopened] at hle
    have hfree : state.conn party ≠ some conn := fun hheld =>
      absurd (hconnected.below party conn hheld) (Nat.not_lt.mpr hle)
    rw [hchannels conn hfree, hworld]
    exact hconnected.fresh conn hle
  below := by
    intro other conn hheld
    rw [hopened]
    by_cases hsame : other = party
    · rw [hsame] at hheld
      exact (hconn conn hheld).1
    · rw [(hothers other hsame).1] at hheld
      exact hconnected.below other conn hheld
  apart := by
    intro other another conn hheld hagain
    by_cases hsame : other = party
    · by_cases hsame' : another = party
      · rw [hsame, hsame']
      · rw [hsame] at hheld
        rw [(hothers another hsame').1] at hagain
        exact absurd hagain ((hconn conn hheld).2.1 another hsame')
    · rw [(hothers other hsame).1] at hheld
      by_cases hsame' : another = party
      · rw [hsame'] at hagain
        exact absurd hheld ((hconn conn hagain).2.1 other hsame)
      · rw [(hothers another hsame').1] at hagain
        exact hconnected.apart other another conn hheld hagain
  parties := by
    intro other conn hheld
    by_cases hsame : other = party
    · rw [hsame] at hheld ⊢
      exact (hconn conn hheld).2.2
    · rw [(hothers other hsame).1] at hheld
      rw [(hothers other hsame).2]
      refine (hconnected.parties other conn hheld).congr hworld (hchannels conn fun hmine => ?_)
      exact hsame (hconnected.apart other party conn hheld hmine)
  sent := by
    intro conn words hwords
    by_cases hmine : state.conn party = some conn
    · exact hsent conn words hmine hwords
    · rw [hchannels conn hmine] at hwords
      exact (hconnected.sent conn words hwords).mono hstage
  taken := by
    intro conn words hbusy hwords
    rw [hworld] at hbusy hwords
    exact (hconnected.taken conn words hbusy hwords).mono hstage
  outside := houtside
  finished := hfinished

/-- A step of the server that opens nothing and takes no request. -/
theorem Connected.serve (hconnected : Connected load state) {event : WorldEvent resp}
    (haccept : ∀ handle id, event ≠ .accept handle id)
    (hrequest : ∀ handle request, event ≠ .request handle request) :
    Connected load { state with world := state.world.step event } where
  fresh := fun conn hle => ⟨(hconnected.fresh conn hle).1,
    World.closed_step (hconnected.fresh conn hle).2 (haccept conn)⟩
  below := hconnected.below
  apart := hconnected.apart
  parties := fun party conn hheld => (hconnected.parties party conn hheld).step (hrequest conn)
  sent := hconnected.sent
  taken := by
    intro conn words hbusy hwords
    obtain ⟨hbefore, hsame⟩ := World.conv_step (hrequest conn) hbusy
    rw [hsame] at hwords
    exact hconnected.taken conn words hbefore hwords
  outside := hconnected.outside
  finished := hconnected.finished

/-- A connection is opened; nobody holds it yet. -/
theorem Connected.connect (hconnected : Connected load state) (id : UInt32) :
    Connected load (state.connect id) where
  fresh := by
    intro conn hle
    have hless : state.opened < conn := hle
    refine ⟨(hconnected.fresh conn hless.le).1, ?_⟩
    refine World.closed_step (hconnected.fresh conn hless.le).2 fun other hsame => ?_
    exact absurd (WorldEvent.accept.inj hsame).1 hless.ne
  below := fun party conn hheld => Nat.lt_succ_of_lt (hconnected.below party conn hheld)
  apart := hconnected.apart
  parties := fun party conn hheld =>
    ((hconnected.parties party conn hheld).step (by rintro request ⟨⟩)).congr rfl rfl
  sent := hconnected.sent
  taken := by
    intro conn words hbusy hwords
    obtain ⟨hbefore, hsame⟩ := World.conv_step (by rintro request ⟨⟩) hbusy
    change ((state.world.step (.accept state.opened id)).threads conn).request = _ at hwords
    rw [hsame] at hwords
    exact hconnected.taken conn words hbefore hwords
  outside := hconnected.outside
  finished := hconnected.finished

/-- The new connection is quiet. -/
theorem Connected.quiet_connect (hconnected : Connected load state) (id : UInt32) :
    At (state.connect id) state.opened none := by
  obtain ⟨hchannel, hphase⟩ := hconnected.fresh state.opened (Nat.le_refl _)
  refine ⟨hchannel, ?_⟩
  change ((state.world.step (.accept state.opened id)).threads state.opened).phase.conv = none
  rw [World.step]
  split
  · simp only [World.set, Function.update_self]
    rfl
  · rw [hphase]
    rfl

/-- The server takes a request. -/
theorem Connected.request (hconnected : Connected load state) {handle : Nat} {words : resp.Request}
    {world : World resp} (hchannel : state.channels handle = .request words)
    (hphase : (state.world.threads handle).phase = .idle)
    (hworld : world = state.world.step (.request handle words)) :
    Connected load (State.put { state with world } handle .quiet) := by
  obtain ⟨thread, hthreads, hrequest, hreplies⟩ := World.threads_request hphase words
  rw [← hworld] at hthreads hreplies
  have hself : Function.update state.channels handle .quiet handle = .quiet :=
    Function.update_self ..
  have hchannels : ∀ conn, conn ≠ handle →
      Function.update state.channels handle .quiet conn = state.channels conn :=
    fun conn hne => Function.update_of_ne hne _ _
  have hothers : ∀ conn, conn ≠ handle → world.threads conn = state.world.threads conn := by
    intro conn hne
    rw [hthreads, Function.update_of_ne hne]
  refine ⟨?_, hconnected.below, hconnected.apart, ?_, ?_, ?_, hconnected.outside,
    hconnected.finished⟩
  · intro conn hle
    obtain ⟨hquiet, hclosed⟩ := hconnected.fresh conn hle
    have hne : conn ≠ handle := by
      rintro rfl
      rw [hphase] at hclosed
      cases hclosed
    exact ⟨(hchannels conn hne).trans hquiet, (congrArg Thread.phase (hothers conn hne)).trans hclosed⟩
  · intro party conn hheld
    have hat := hconnected.parties party conn hheld
    by_cases hsame : conn = handle
    · rw [hsame] at hat ⊢
      change At _ handle (state.asked party)
      cases hparty : state.asked party with
      | none =>
          rw [hparty] at hat
          have hquiet := hat.1
          rw [hchannel] at hquiet
          cases hquiet
      | some asked =>
          rw [hparty] at hat
          unfold At Waiting at hat ⊢
          simp only [hchannel] at hat
          simp only [State.put, hself]
          intro _
          rw [hthreads, Function.update_self, hrequest]
          exact congrArg some hat.1
    · refine hat.frame (hothers conn hsame) ?_ (hchannels conn hsame)
      change ∀ reply ∈ state.world.replies, reply ∈ world.replies
      rw [hreplies]
      exact fun _ hreply => hreply
  · intro conn asked hwords
    by_cases hsame : conn = handle
    · rw [hsame] at hwords
      cases hself.symm.trans hwords
    · exact hconnected.sent conn asked ((hchannels conn hsame).symm.trans hwords)
  · intro conn asked hbusy hwords
    change (world.threads conn).phase.conv ≠ none at hbusy
    change (world.threads conn).request = some asked at hwords
    by_cases hsame : conn = handle
    · rw [hsame, hthreads, Function.update_self, hrequest] at hwords
      obtain rfl := Option.some.inj hwords
      exact hconnected.sent handle _ hchannel
    · rw [hothers conn hsame] at hbusy hwords
      exact hconnected.taken conn asked hbusy hwords

/-- The server replies. -/
theorem Connected.reply (hconnected : Connected load state) {handle : Nat} {turn : Turn resp.Conn}
    (hphase : (state.world.threads handle).phase = .serving (.ret turn)) :
    Connected load (State.put { state with world := state.world.step (.reply handle) } handle
      (.reply turn.output)) := by
  have hserved : Connected load { state with world := state.world.step (.reply handle) } :=
    hconnected.serve (by rintro handle id ⟨⟩) (by rintro handle request ⟨⟩)
  have hothers : ∀ conn, conn ≠ handle →
      Function.update state.channels handle (.reply turn.output) conn = state.channels conn :=
    fun conn hne => Function.update_of_ne hne _ _
  refine ⟨?_, hserved.below, hserved.apart, ?_, ?_, hserved.taken, hserved.outside,
    hserved.finished⟩
  · intro conn hle
    have hne : conn ≠ handle := by
      rintro rfl
      have hclosed := (hconnected.fresh conn hle).2
      rw [hphase] at hclosed
      cases hclosed
    exact ⟨(hothers conn hne).trans (hserved.fresh conn hle).1, (hserved.fresh conn hle).2⟩
  · intro party conn hheld
    by_cases hsame : conn = handle
    · have hat := hconnected.parties party conn hheld
      rw [hsame] at hat ⊢
      have hbusy : (state.world.threads handle).phase.conv ≠ none := by
        rw [hphase]
        rintro ⟨⟩
      change At _ handle (state.asked party)
      cases hparty : state.asked party with
      | none =>
          rw [hparty] at hat
          exact absurd hat.2 hbusy
      | some asked =>
          rw [hparty] at hat
          unfold At Waiting at hat ⊢
          simp only [State.put, Function.update_self]
          cases hchannel : state.channels handle with
          | quiet =>
              simp only [hchannel] at hat
              obtain ⟨hnone, served, hreplies, hrequest, houtput⟩ := World.threads_reply hphase
              refine ⟨hnone, served, ?_, hrequest.trans (hat hbusy), houtput⟩
              rw [hreplies]
              exact List.mem_append_right _ (List.mem_singleton_self served)
          | request words =>
              simp only [hchannel] at hat
              exact absurd hat.2 hbusy
          | reply bytes =>
              simp only [hchannel] at hat
              exact absurd hat.1 hbusy
    · exact (hserved.parties party conn hheld).congr rfl (hothers conn hsame)
  · intro conn words hwords
    by_cases hsame : conn = handle
    · rw [hsame] at hwords
      change Function.update _ _ _ _ = _ at hwords
      rw [Function.update_self] at hwords
      cases hwords
    · exact hserved.sent conn words ((hothers conn hsame).symm.trans hwords)

end Connections

/-! ### What has been acknowledged, and what is read back -/

/-- One of the executions has written the entry. -/
def Written (executions : List (Execution resp)) (entry : String × String) : Prop :=
  ∃ client round, entry = (key client round, val client round) ∧ ∃ execution ∈ executions,
    execution.op.kind = .set (key client round) (asBytes (val client round))

/-- What is left to read was written before the first read of all. -/
def Precedes (executions : List (Execution resp)) (left : List (String × String)) : Prop :=
  ∃ before after, executions = before ++ after ∧ (∀ execution ∈ before, Writes execution.op)
    ∧ ∀ entry ∈ left, Written before entry

theorem Written.append {executions : List (Execution resp)} {entry : String × String}
    (hwritten : Written executions entry) (more : List (Execution resp)) :
    Written (executions ++ more) entry := by
  obtain ⟨client, round, hentry, execution, hexecution, hkind⟩ := hwritten
  exact ⟨client, round, hentry, execution, List.mem_append_left _ hexecution, hkind⟩

theorem Precedes.append {executions : List (Execution resp)} {left : List (String × String)}
    (hprecedes : Precedes executions left) (more : List (Execution resp)) :
    Precedes (executions ++ more) left := by
  obtain ⟨before, after, rfl, hrest⟩ := hprecedes
  exact ⟨before, after ++ more, List.append_assoc .., hrest⟩

section Replies

variable {γ : Type} {view : resp.Conn → γ} {line : γ → resp.Request → γ} {handed : Nat}
  {executions : List (Execution resp)} {world : World resp} {reply : Served resp}

/-- A write that was acknowledged has been executed. -/
theorem written_of_ack
    (hcontinues : world.Continues Resp.numbering view line handed executions)
    (hreply : reply ∈ world.replies) {client round : Nat} {words : resp.Request}
    (hwords : words = setRequest (key client round) (val client round))
    (hrequest : reply.request = some words) (hack : doSet reply.output = true) :
    Written executions (key client round, val client round) := by
  obtain ⟨-, request, turn, hsame, houtput, hends⟩ := hcontinues.serves.replied reply hreply
  obtain rfl := Option.some.inj (hrequest.symm.trans hsame)
  rw [hwords] at hends
  change (Resp.serve reply.client reply.conn (setRequest (key client round) (val client round))).Ends
    reply.answers turn at hends
  have hserve := Resp.serve_set reply.client reply.conn (key client round)
    (asBytes (val client round))
  rw [setRequest, hserve] at hends
  obtain ⟨out, hanswers, rfl⟩ := Conv.ends_single hends
  cases out with
  | none =>
      rw [houtput] at hack
      cases doSet_unavailable.symm.trans hack
  | some out =>
      obtain ⟨place, hplace, hexplained⟩ := hcontinues.serves.executes.replies reply hreply
      rw [hanswers] at hexplained
      obtain ⟨earlier, behind, -, -, -, hexecution, -⟩ := @Explained.last _ _ _ _ _ [] _ _ hexplained
      exact ⟨client, round, rfl, _, List.mem_of_getElem? hexecution, rfl⟩

/-- What is read of a written key is its value. -/
theorem get_of_reply
    (hcontinues : world.Continues Resp.numbering view line handed executions)
    (hops : ∀ execution ∈ executions, Writes execution.op ∨ Reads execution.op)
    {left : List (String × String)} (hprecedes : Precedes executions left)
    {entry : String × String} (hentry : entry ∈ left) (hreply : reply ∈ world.replies)
    {words : resp.Request} (hwords : words = getRequest entry.1)
    (hrequest : reply.request = some words) : get reply.output = some entry.2 := by
  obtain ⟨before, after, rfl, hwrites, hwritten⟩ := hprecedes
  obtain ⟨client, round, rfl, written, hmem, hkind⟩ := hwritten entry hentry
  obtain ⟨-, request, turn, hsame, houtput, hends⟩ := hcontinues.serves.replied reply hreply
  obtain rfl := Option.some.inj (hrequest.symm.trans hsame)
  rw [hwords] at hends
  change (Resp.serve reply.client reply.conn (getRequest (key client round))).Ends reply.answers turn
    at hends
  have hserve := Resp.serve_get reply.client reply.conn (key client round)
  rw [getRequest, hserve] at hends
  obtain ⟨answer, hanswers, rfl⟩ := Conv.ends_single hends
  have hanswered := hcontinues.attended.replies reply hreply
  obtain ⟨place, hplace, hexplained⟩ := hcontinues.serves.executes.replies reply hreply
  rw [hanswers] at hexplained hanswered
  obtain ⟨out, rfl⟩ := Option.ne_none_iff_exists'.mp (hanswered _ (List.mem_singleton_self _))
  obtain ⟨earlier, behind, -, -, -, hexecution, hout⟩ := @Explained.last _ _ _ _ _ [] _ _ hexplained
  -- the read is not one of the writes, so it comes after all of them
  have hbehind : before.length ≤ behind := by
    by_contra hless
    rw [List.getElem?_append_left (Nat.lt_of_not_le hless)] at hexecution
    obtain ⟨other, turn, hwrite⟩ := hwrites _ (List.mem_of_getElem? hexecution)
    cases hwrite
  have hmap : (stored StateMachine.default ((before ++ after).take behind)).map[key client round]?
      = some (asBytes (val client round)) := by
    refine stored_val (fun execution hexecution => ?_) ⟨written, ?_, hkind⟩ _
    · exact hops execution (List.mem_of_mem_take hexecution)
    · rw [List.take_append, List.take_of_length_le hbehind]
      exact List.mem_append_left _ hmem
  have hread : out = .bytes (some (asBytes (val client round))) := by
    rw [hout, ← hmap]
    rfl
  rw [houtput, hread]
  exact get_readReply (notMem_val client round)

end Replies

/-! ### Steps -/

/-- What every run of the harness keeps, given the executions of its server. -/
structure Tested (load : Load) (state : State) (executions : List (Execution resp)) : Prop where
  connected : Connected load state
  executed : ∀ execution ∈ executions, ∃ words : List Bytes,
    execution.serving.request = some words ∧ Known state.stage words
  acked : ∀ client, ∀ entry ∈ (state.clients client).acked, Written executions entry
  left : ∀ conn left waiting, state.stage = .verify conn left waiting → Precedes executions left
  lost : state.lost = state.stage.failed
  torn : state.torn = 0

section Steps

variable {load : Load} {state next : State} {executions : List (Execution resp)} {client : Nat}
  {thread : Client} {channels : Nat → Channel}

theorem Connected.own (hconnected : Connected load state) {party : Option Nat} {conn : Nat}
    (hheld : state.conn party = some conn) :
    conn < state.opened ∧ ∀ other, other ≠ party → state.conn other ≠ some conn :=
  ⟨hconnected.below party conn hheld,
    fun other hne hagain => hne (hconnected.apart other party conn hagain hheld)⟩

/-- A step of a client. -/
theorem Tested.setClient (htested : Tested load state executions) (hclient : client < load.clients)
    (hchannels : ∀ conn, (state.clients client).conn ≠ some conn →
      channels conn = state.channels conn)
    (hthread : ∀ conn, thread.conn = some conn → conn < state.opened
      ∧ (∀ other, other ≠ some client → state.conn other ≠ some conn)
      ∧ At { state with channels } conn (thread.asked client))
    (hsent : ∀ conn words, (state.clients client).conn = some conn →
      channels conn = .request words → Known state.stage words)
    (hfinished : thread.pc = .finished → thread.conn = none)
    (hacked : ∀ entry ∈ thread.acked, Written executions entry) :
    Tested load (State.setClient { state with channels } client thread) executions := by
  have hconnected := htested.connected
  have hself : Function.update state.clients client thread client = thread := Function.update_self ..
  have hothers : ∀ other, other ≠ client →
      Function.update state.clients client thread other = state.clients other :=
    fun other hne => Function.update_of_ne hne _ _
  refine ⟨hconnected.change (some client) rfl rfl (fun hstage => hstage) ?_ hchannels ?_ hsent ?_ ?_,
    htested.executed, ?_, htested.left, htested.lost, htested.torn⟩
  · rintro (_ | other) hne
    · exact ⟨rfl, rfl⟩
    · have hsame := hothers other fun hother => hne (congrArg some hother)
      exact ⟨congrArg Client.conn hsame, congrArg (Client.asked other) hsame⟩
  · intro conn hheld
    obtain ⟨hbelow, hapart, hat⟩ := hthread conn ((congrArg Client.conn hself).symm.trans hheld)
    refine ⟨hbelow, hapart, ?_⟩
    change At _ conn (Client.asked client (Function.update state.clients client thread client))
    rw [hself]
    exact hat.congr rfl rfl
  · intro other hle
    have hne : other ≠ client := fun hsame => absurd hclient (Nat.not_lt.mpr (hsame ▸ hle))
    exact (congrArg Client.conn (hothers other hne)).trans (hconnected.outside other hle)
  · intro other
    change (Function.update state.clients client thread other).pc = _ →
      (Function.update state.clients client thread other).conn = _
    by_cases hsame : other = client
    · rw [hsame, hself]
      exact hfinished
    · rw [hothers other hsame]
      exact hconnected.finished other
  · intro other
    change ∀ entry ∈ (Function.update state.clients client thread other).acked, _
    by_cases hsame : other = client
    · rw [hsame, hself]
      exact hacked
    · rw [hothers other hsame]
      exact htested.acked other

/-- A client whose connection is gone. -/
theorem Tested.drop (htested : Tested load state executions) (hclient : client < load.clients)
    (hconn : thread.conn = none) (hacked : thread.acked = (state.clients client).acked) :
    Tested load (state.setClient client thread) executions := by
  refine @Tested.setClient _ state _ _ _ state.channels htested hclient (fun _ _ => rfl) ?_ ?_
    (fun _ => hconn) ?_
  · intro conn hheld
    rw [hconn] at hheld
    cases hheld
  · exact fun conn words _ hwords => htested.connected.sent conn words hwords
  · rw [hacked]
    exact htested.acked client

theorem Tested.connect (htested : Tested load state executions) (id : UInt32) :
    Tested load (state.connect id) executions :=
  ⟨htested.connected.connect id, htested.executed, htested.acked, htested.left, htested.lost,
    htested.torn⟩

/-- A step of a client on the connection it holds. -/
theorem Tested.put (htested : Tested load state executions) (hclient : client < load.clients)
    {conn : Nat} (hheld : (state.clients client).conn = some conn) {channel : Channel}
    (hconn : thread.conn = some conn)
    (hat : At (state.put conn channel) conn (thread.asked client))
    (hsent : ∀ words, channel = .request words → Known state.stage words)
    (hpc : thread.pc ≠ .finished) (hacked : ∀ entry ∈ thread.acked, Written executions entry) :
    Tested load ((state.put conn channel).setClient client thread) executions := by
  obtain ⟨hbelow, hapart⟩ := @Connected.own _ _ htested.connected (some client) conn hheld
  refine htested.setClient hclient (channels_put hheld channel) (fun other hother => ?_)
    (sent_put hheld hsent) (fun hpc' => absurd hpc' hpc) hacked
  obtain rfl := Option.some.inj (hconn.symm.trans hother)
  exact ⟨hbelow, hapart, hat⟩

/-- What a client can do: open a connection, lose one or not get one, send, end, have a reply, or find
its connection closed. -/
theorem clientStep_cases {move : Move} (hstep : clientStep load state client move = some next) :
    (∃ id, move = .connect id ∧ (state.clients client).pc = .top
        ∧ next = (state.connect id).setClient client
          { state.clients client with conn := some state.opened })
      ∨ ((move = .giveUp ∨ move = .fail)
        ∧ next = state.setClient client (state.clients client).miss)
      ∨ (∃ conn, move = .send ∧ (state.clients client).pc = .top
        ∧ (state.clients client).conn = some conn
        ∧ next = (state.put conn (.request (setRequest (key client (state.clients client).round)
          (val client (state.clients client).round)))).setClient client
            { state.clients client with pc := .waiting })
      ∨ (move = .finish
        ∧ next = state.setClient client { state.clients client with conn := none, pc := .finished })
      ∨ (∃ conn bytes, move = .read ∧ (state.clients client).pc = .waiting
        ∧ (state.clients client).conn = some conn ∧ state.channels conn = .reply bytes
        ∧ next = (state.put conn .quiet).setClient client
          (if doSet bytes then (state.clients client).ack (key client (state.clients client).round)
            (val client (state.clients client).round) else (state.clients client).advance))
      ∨ ∃ conn, move = .eof ∧ (state.clients client).conn = some conn
        ∧ (state.world.threads conn).phase = .closed
        ∧ next = (state.put conn .quiet).setClient client (state.clients client).advance := by
  unfold clientStep at hstep
  dsimp only at hstep
  by_cases hpc : (state.clients client).pc = .top ∧ (state.clients client).round < load.ops
  · rw [if_pos hpc] at hstep
    cases hconn : (state.clients client).conn with
    | none =>
      rw [hconn] at hstep
      cases move with
      | connect id =>
        dsimp only at hstep
        split at hstep
        · exact .inl ⟨id, rfl, hpc.1, (Option.some.inj hstep).symm⟩
        · cases hstep
      | giveUp => exact .inr (.inl ⟨.inl rfl, (Option.some.inj hstep).symm⟩)
      | _ => cases hstep
    | some conn =>
      rw [hconn] at hstep
      cases move with
      | send =>
        refine .inr (.inr (.inl ⟨conn, rfl, hpc.1, rfl, ?_⟩))
        rw [← Option.some.inj hstep, ← hconn]
      | fail => exact .inr (.inl ⟨.inr rfl, (Option.some.inj hstep).symm⟩)
      | _ => cases hstep
  · rw [if_neg hpc] at hstep
    by_cases htop : (state.clients client).pc = .top
    · rw [if_pos htop] at hstep
      cases move with
      | finish => exact .inr (.inr (.inr (.inl ⟨rfl, (Option.some.inj hstep).symm⟩)))
      | _ => cases hstep
    · rw [if_neg htop] at hstep
      by_cases hwaits : (state.clients client).pc = .waiting
      · rw [if_pos hwaits] at hstep
        cases hconn : (state.clients client).conn with
        | none =>
          rw [hconn] at hstep
          cases move <;> cases hstep
        | some conn =>
          rw [hconn] at hstep
          cases move with
          | read =>
            dsimp only at hstep
            split at hstep
            · rename_i bytes hchannel
              exact .inr (.inr (.inr (.inr (.inl
                ⟨conn, bytes, rfl, hwaits, rfl, hchannel, (Option.some.inj hstep).symm⟩))))
            · cases hstep
          | eof =>
            dsimp only at hstep
            split at hstep
            · cases hstep
            · rename_i hphase hchannel
              exact .inr (.inr (.inr (.inr (.inr
                ⟨conn, rfl, rfl, hphase, (Option.some.inj hstep).symm⟩))))
            · cases hstep
          | fail => exact .inr (.inl ⟨.inr rfl, (Option.some.inj hstep).symm⟩)
          | _ => cases hstep
      · rw [if_neg hwaits] at hstep
        cases hstep

/-- **The step lemma for the clients.** -/
theorem Tested.clients (htested : Tested load state executions) {handed : Nat}
    (hcontinues : state.world.Continues Resp.numbering (fun _ => ()) (fun _ _ => ()) handed executions)
    (hclient : client < load.clients) {move : Move}
    (hstep : clientStep load state client move = some next) : Tested load next executions := by
  have hconnected := htested.connected
  have hacked := htested.acked client
  rcases clientStep_cases hstep with ⟨id, -, hpc, rfl⟩ | ⟨-, rfl⟩ | ⟨conn, -, hpc, hconn, rfl⟩
    | ⟨-, rfl⟩ | ⟨conn, bytes, -, hwaits, hconn, hchannel, rfl⟩ | ⟨conn, -, hconn, hphase, rfl⟩
  · have hopened := htested.connect id
    refine @Tested.setClient _ (state.connect id) _ _ _ state.channels hopened hclient
      (fun _ _ => rfl) ?_ ?_ ?_ hacked
    · intro conn hheld
      obtain rfl := Option.some.inj hheld
      refine ⟨Nat.lt_succ_self _, fun other _ hother => ?_, ?_⟩
      · exact absurd (hconnected.below other _ hother) (Nat.lt_irrefl _)
      · change At _ _ ((state.clients client).asked client)
        rw [Client.asked, hpc]
        exact hconnected.quiet_connect id
    · exact fun conn words _ hwords => hconnected.sent conn words hwords
    · intro hfinished
      rw [hpc] at hfinished
      cases hfinished
  · exact htested.drop hclient rfl rfl
  · refine htested.put hclient hconn hconn ?_ ?_ (by rintro ⟨⟩) hacked
    · have hquiet := hconnected.parties (some client) conn hconn
      change At state conn ((state.clients client).asked client) at hquiet
      rw [Client.asked, hpc] at hquiet
      exact at_request hquiet.2 _
    · rintro words ⟨⟩
      exact .inl ⟨client, _, rfl⟩
  · exact htested.drop hclient rfl rfl
  · have hat := hconnected.parties (some client) conn hconn
    change At state conn ((state.clients client).asked client) at hat
    rw [Client.asked, hwaits] at hat
    obtain ⟨hnone, reply, hreply, hrequest, rfl⟩ := at_reply hat hchannel
    refine htested.put hclient hconn ?_ ?_ (by rintro words ⟨⟩) ?_ ?_
    · split <;> exact hconn
    · split <;> exact at_quiet hnone
    · split <;> rintro ⟨⟩
    · split
      · rename_i hack
        intro entry hentry
        rcases List.mem_append.mp hentry with hold | hlast
        · exact hacked entry hold
        · rw [List.mem_singleton.mp hlast]
          exact written_of_ack hcontinues hreply rfl hrequest hack
      · exact hacked
  · refine htested.put hclient hconn hconn (at_quiet ?_) (by rintro words ⟨⟩) (by rintro ⟨⟩) hacked
    rw [hphase]
    rfl

/-- An execution for a request of the harness is one of its ops. -/
theorem op_of_known {γ : Type} {view : resp.Conn → γ} {line : γ → resp.Request → γ}
    {execution : Execution resp} (hfollows : execution.Follows view line) {stage : Stage}
    {words : List Bytes} (hrequest : execution.serving.request = some words)
    (hknown : Known stage words) : Writes execution.op ∨ stage ≠ .load ∧ Reads execution.op := by
  rcases hknown with ⟨client, round, rfl⟩ | ⟨hstage, key, rfl⟩
  · exact .inl ⟨client, round, kind_of_set hfollows hrequest⟩
  · exact .inr ⟨hstage, key, kind_of_get hfollows hrequest⟩

/-- A step of the main thread on its connection. -/
theorem Tested.setStage (htested : Tested load state executions) (hworld : next.world = state.world)
    (hopened : next.opened = state.opened) (hclients : next.clients = state.clients)
    (hstage : next.stage ≠ .load)
    (hchannels : ∀ conn, state.stage.conn ≠ some conn → next.channels conn = state.channels conn)
    (hconn : ∀ conn, next.stage.conn = some conn → conn < state.opened
      ∧ (∀ other, other ≠ none → state.conn other ≠ some conn) ∧ At next conn next.stage.asked)
    (hsent : ∀ conn words, state.stage.conn = some conn → next.channels conn = .request words →
      Known next.stage words)
    (hleft : ∀ conn left waiting, next.stage = .verify conn left waiting → Precedes executions left)
    (hlost : next.lost = next.stage.failed) (htorn : next.torn = 0) : Tested load next executions := by
  have hconnected := htested.connected
  refine ⟨hconnected.change none hworld hopened (fun _ => hstage) ?_ hchannels hconn hsent ?_ ?_, ?_, ?_,
    hleft, hlost, htorn⟩
  · rintro (_ | other) hne
    · exact absurd rfl hne
    · exact ⟨congrArg (fun clients => (clients other).conn) hclients,
        congrArg (fun clients => (clients other).asked other) hclients⟩
  · rw [hclients]
    exact hconnected.outside
  · rw [hclients]
    exact hconnected.finished
  · intro execution hexecution
    obtain ⟨words, hrequest, hknown⟩ := htested.executed execution hexecution
    exact ⟨words, hrequest, hknown.mono fun _ => hstage⟩
  · rw [hclients]
    exact htested.acked

/-- A read of the main thread fails. -/
theorem Tested.breaks (htested : Tested load state executions) {failed : Nat}
    {left : List (String × String)} (hworld : next.world = state.world)
    (hopened : next.opened = state.opened) (hclients : next.clients = state.clients)
    (hchannels : next.channels = state.channels) (hstage : next.stage = .broken failed left)
    (hlost : next.lost = failed) (htorn : next.torn = state.torn) : Tested load next executions := by
  have hbroken : next.stage ≠ .load := by
    rw [hstage]
    rintro ⟨⟩
  refine htested.setStage hworld hopened hclients hbroken (fun conn _ => by rw [hchannels]) ?_ ?_ ?_
    (hlost.trans (congrArg Stage.failed hstage).symm) (htorn.trans htested.torn)
  · intro conn hconn
    rw [hstage] at hconn
    cases hconn
  · intro conn words _ hwords
    rw [hchannels] at hwords
    exact (htested.connected.sent conn words hwords).mono fun _ => hbroken
  · intro conn rest waiting hverify
    rw [hstage] at hverify
    cases hverify

/-- **The step lemma for the main thread.** -/
theorem Tested.verify (htested : Tested load state executions) {handed : Nat}
    (hcontinues : state.world.Continues Resp.numbering (fun _ => ()) (fun _ _ => ()) handed executions)
    {move : Move} (hstep : verifyStep load state move = some next) :
    Tested load next executions := by
  have hconnected := htested.connected
  have hops : ∀ execution ∈ executions,
      Writes execution.op ∨ state.stage ≠ .load ∧ Reads execution.op := by
    intro execution hexecution
    obtain ⟨words, hrequest, hknown⟩ := htested.executed execution hexecution
    exact op_of_known (hcontinues.serves.executed execution hexecution) hrequest hknown
  unfold verifyStep at hstep
  split at hstep
  · rename_i id hstage
    split at hstep
    · rename_i hjoined
      obtain rfl := Option.some.inj hstep
      have hzero : state.lost = 0 := htested.lost.trans (congrArg Stage.failed hstage)
      refine (htested.connect id).setStage rfl rfl rfl (by rintro ⟨⟩) (fun _ _ => rfl) ?_ ?_ ?_
        hzero htested.torn
      · intro conn hheld
        obtain rfl := Option.some.inj hheld
        refine ⟨Nat.lt_succ_self _, fun other _ hother => ?_, ?_⟩
        · exact absurd (hconnected.below other _ hother) (Nat.lt_irrefl _)
        · change At _ _ (Stage.asked (.verify state.opened (allAcked load state) false))
          rw [Stage.asked_idle]
          exact (hconnected.quiet_connect id).congr rfl rfl
      · intro conn words hheld
        change state.stage.conn = some conn at hheld
        rw [hstage] at hheld
        cases hheld
      · rintro conn left waiting ⟨⟩
        refine ⟨executions, [], (List.append_nil _).symm, fun execution hexecution => ?_,
          fun entry hentry => ?_⟩
        · exact (hops execution hexecution).resolve_right fun hread => hread.1 hstage
        · obtain ⟨client, -, hmem⟩ := List.mem_flatMap.mp hentry
          exact htested.acked client entry hmem
    · cases hstep
  · rename_i conn key val left hstage
    have hzero : state.lost = 0 := htested.lost.trans (congrArg Stage.failed hstage)
    obtain rfl := Option.some.inj hstep
    have hheld : state.conn none = some conn := congrArg Stage.conn hstage
    have hat := hconnected.parties none conn hheld
    change At state conn state.stage.asked at hat
    rw [hstage] at hat
    refine htested.setStage rfl rfl rfl (by rintro ⟨⟩) (channels_put hheld _) ?_ (sent_put hheld ?_) ?_
      hzero htested.torn
    · rintro other ⟨⟩
      obtain ⟨hbelow, hapart⟩ := hconnected.own hheld
      exact ⟨hbelow, hapart, (at_request hat.2 _).congr rfl rfl⟩
    · rintro words ⟨⟩
      exact .inr ⟨by rintro ⟨⟩, key, rfl⟩
    · rintro other rest waiting ⟨⟩
      exact htested.left _ _ _ hstage
  · rename_i conn key val left hstage
    split at hstep
    · rename_i bytes hchannel
      have hzero : state.lost = 0 := htested.lost.trans (congrArg Stage.failed hstage)
      have hheld : state.conn none = some conn := congrArg Stage.conn hstage
      have hat := hconnected.parties none conn hheld
      change At state conn state.stage.asked at hat
      rw [hstage] at hat
      obtain ⟨hnone, reply, hreply, hrequest, rfl⟩ := at_reply hat hchannel
      have hprecedes := htested.left _ _ _ hstage
      have hget : get reply.output = some val :=
        get_of_reply hcontinues (fun execution hexecution => (hops execution hexecution).imp_right And.right)
          hprecedes List.mem_cons_self hreply rfl hrequest
      rw [hget] at hstep
      dsimp only at hstep
      rw [if_pos rfl] at hstep
      obtain rfl := Option.some.inj hstep
      refine htested.setStage rfl rfl rfl (by rintro ⟨⟩) (channels_put hheld _) ?_
        (sent_put hheld (by rintro words ⟨⟩)) ?_
        hzero htested.torn
      · rintro other ⟨⟩
        obtain ⟨hbelow, hapart⟩ := hconnected.own hheld
        refine ⟨hbelow, hapart, ?_⟩
        change At _ _ (Stage.asked (.verify conn left false))
        rw [Stage.asked_idle]
        exact (at_quiet hnone).congr rfl rfl
      · rintro other rest waiting ⟨⟩
        obtain ⟨before, after, hsplit, hwrites, hwritten⟩ := hprecedes
        exact ⟨before, after, hsplit, hwrites,
          fun entry hentry => hwritten entry (List.mem_cons_of_mem _ hentry)⟩
    · cases hstep
  · rename_i hstage
    obtain rfl := Option.some.inj hstep
    refine htested.breaks rfl rfl rfl rfl rfl ?_ rfl
    exact congrArg (· + 1) (htested.lost.trans (congrArg Stage.failed hstage))
  · rename_i hstage
    obtain rfl := Option.some.inj hstep
    refine htested.breaks rfl rfl rfl rfl rfl ?_ rfl
    exact congrArg (· + 1) (htested.lost.trans (congrArg Stage.failed hstage))
  · cases hstep

/-- The harness is where it was when its server has taken a step. -/
def Unmoved (state next : State) : Prop :=
  next.opened = state.opened ∧ next.clients = state.clients ∧ next.stage = state.stage
    ∧ next.lost = state.lost ∧ next.torn = state.torn

theorem Connected.server (hconnected : Connected load state) {event : WorldEvent resp}
    (hstep : serverStep load state event = some next) :
    Connected load next ∧ next.world = state.world.step event ∧ Unmoved state next := by
  have hunmoved : Unmoved state state := ⟨rfl, rfl, rfl, rfl, rfl⟩
  unfold serverStep at hstep
  cases event with
  | accept handle id => cases hstep
  | request handle args =>
      dsimp only at hstep
      split at hstep
      · rename_i words hchannel hphase
        split at hstep
        · rename_i hargs
          obtain rfl := Option.some.inj hstep
          refine ⟨hconnected.request ?_ hphase rfl, rfl, hunmoved⟩
          rw [hchannel]
          exact congrArg Channel.request hargs.symm
        · cases hstep
      · cases hstep
  | reply handle =>
      dsimp only at hstep
      split at hstep
      · rename_i turn hphase
        obtain rfl := Option.some.inj hstep
        exact ⟨hconnected.reply hphase, rfl, hunmoved⟩
      · cases hstep
  | disconnect handle =>
      dsimp only at hstep
      split at hstep
      · cases hstep
      · obtain rfl := Option.some.inj hstep
        exact ⟨hconnected.serve (by rintro _ _ ⟨⟩) (by rintro _ _ ⟨⟩), rfl, hunmoved⟩
  | execute faults tick | crash =>
      dsimp only at hstep
      split at hstep
      · obtain rfl := Option.some.inj hstep
        exact ⟨hconnected.serve (by rintro _ _ ⟨⟩) (by rintro _ _ ⟨⟩), rfl, hunmoved⟩
      · cases hstep
  | send handle | receive handle | restart interval =>
      obtain rfl := Option.some.inj hstep
      exact ⟨hconnected.serve (by rintro _ _ ⟨⟩) (by rintro _ _ ⟨⟩), rfl, hunmoved⟩

/-- **The step lemma for the server.** -/
theorem Tested.server (htested : Tested load state executions) {handed : Nat}
    (hcontinues : state.world.Continues Resp.numbering (fun _ => ()) (fun _ _ => ()) handed executions)
    {event : WorldEvent resp} (hstep : serverStep load state event = some next) :
    Tested load next (executions ++ state.world.executes event) := by
  obtain ⟨hconnected, -, -, hclients, hstage, hlost, htorn⟩ := htested.connected.server hstep
  refine ⟨hconnected, ?_, ?_, ?_, ?_, htorn.trans htested.torn⟩
  · rw [hstage]
    intro execution hexecution
    rcases List.mem_append.mp hexecution with hold | hnew
    · exact htested.executed execution hold
    · obtain ⟨-, request, -, hrequest, -⟩ :=
        World.follows_of_executes hcontinues.serves.wired hcontinues.serves.follows hnew
      obtain ⟨handle, hserving, hbusy⟩ := World.busy_of_executes hcontinues.serves.wired hnew
      refine ⟨request, hrequest, htested.connected.taken handle request hbusy ?_⟩
      rw [hserving] at hrequest
      exact hrequest
  · rw [hclients]
    exact fun client entry hentry => (htested.acked client entry hentry).append _
  · rw [hstage]
    exact fun conn left waiting hverify => (htested.left conn left waiting hverify).append _
  · rw [hlost, hstage]
    exact htested.lost

/-! ### Runs -/

/-- The event can happen, and leaves the server within the limits of its formats and counters. -/
def Admitted (load : Load) (state : State) (event : Event) : Prop :=
  Enabled load state event ∧ ∀ asked ∈ served state event, state.world.Persists Resp.numbering asked

instance (load : Load) (state : State) (event : Event) : Decidable (Admitted load state event) :=
  inferInstanceAs (Decidable (_ ∧ _))

/-- The step is these events to the server, and none of them executes anything. -/
def Silent (state next : State) (asked : List (WorldEvent resp)) : Prop :=
  next.world = Run.run World.step state.world asked
    ∧ Run.trace World.step World.executes state.world asked = []

theorem silent_clientStep {move : Move} (hstep : clientStep load state client move = some next) :
    Silent state next (served state (.client client move)) := by
  rcases clientStep_cases hstep with ⟨id, rfl, -, rfl⟩ | ⟨rfl | rfl, rfl⟩ | ⟨conn, rfl, -, -, rfl⟩
    | ⟨rfl, rfl⟩ | ⟨conn, bytes, rfl, -, -, -, rfl⟩ | ⟨conn, rfl, -, -, rfl⟩
  all_goals exact ⟨rfl, rfl⟩

theorem silent_verifyStep {move : Move} (hstep : verifyStep load state move = some next) :
    Silent state next (served state (.verify move)) := by
  unfold verifyStep at hstep
  split at hstep
  · split at hstep <;> cases hstep
    exact ⟨rfl, rfl⟩
  · cases hstep
    exact ⟨rfl, rfl⟩
  · split at hstep
    · dsimp only at hstep
      split at hstep <;> cases hstep
      · exact ⟨rfl, rfl⟩
      · split <;> exact ⟨rfl, rfl⟩
    · cases hstep
  · cases hstep
    exact ⟨rfl, rfl⟩
  · cases hstep
    exact ⟨rfl, rfl⟩
  · cases hstep

/-- **The step lemma.** -/
theorem Tested.step (htested : Tested load state executions) {handed : Nat}
    (hcontinues : state.world.Continues Resp.numbering (fun _ => ()) (fun _ _ => ()) handed executions)
    {event : Event} (hstep : Jepsen.next load state event = some next) :
    next.world = Run.run World.step state.world (served state event)
      ∧ Tested load next
        (executions ++ Run.trace World.step World.executes state.world (served state event)) := by
  have hsilent : ∀ {asked}, Silent state next asked → Tested load next executions →
      next.world = Run.run World.step state.world asked
        ∧ Tested load next (executions ++ Run.trace World.step World.executes state.world asked) := by
    rintro asked ⟨hworld, htrace⟩ hnext
    rw [htrace, List.append_nil]
    exact ⟨hworld, hnext⟩
  unfold Jepsen.next at hstep
  cases event with
  | client client move =>
      dsimp only at hstep
      split at hstep
      · rename_i hclient
        exact hsilent (silent_clientStep hstep) (htested.clients hcontinues hclient.1 hstep)
      · cases hstep
  | verify move => exact hsilent (silent_verifyStep hstep) (htested.verify hcontinues hstep)
  | probe id =>
      dsimp only at hstep
      split at hstep
      · obtain rfl := Option.some.inj hstep
        exact hsilent ⟨rfl, rfl⟩ (htested.connect id)
      · cases hstep
  | server event =>
      obtain ⟨-, hworld, -⟩ := htested.connected.server hstep
      refine ⟨hworld, ?_⟩
      change Tested load next (executions ++ (state.world.executes event ++ []))
      rw [List.append_nil]
      exact htested.server hcontinues hstep

variable {interval : UInt64} {events : List Event}

/-- What a run of the harness is to the server. -/
def servedBy (load : Load) (interval : UInt64) (events : List Event) : List (WorldEvent resp) :=
  Run.trace (Jepsen.step load) served (State.start interval) events

theorem tested_start : Tested load (State.start interval) [] := by
  refine ⟨⟨fun _ _ => ⟨rfl, rfl⟩, ?_, ?_, ?_, ?_, ?_, fun _ _ => rfl, fun _ _ => rfl⟩, ?_, ?_, ?_, rfl,
    rfl⟩
  · rintro (_ | client) conn ⟨⟩
  · rintro (_ | client) other conn ⟨⟩
  · rintro (_ | client) conn ⟨⟩
  · rintro conn words ⟨⟩
  · exact fun conn words hbusy => absurd rfl hbusy
  · exact fun execution hexecution => absurd hexecution List.not_mem_nil
  · exact fun client entry hentry => absurd hentry List.not_mem_nil
  · rintro conn left waiting ⟨⟩

/-- The guard of a step's events to the server; there is no more than one. -/
theorem guarded_served {event : Event} (hevent : Admitted load state event) :
    Run.Guarded World.step (World.Persists Resp.numbering) state.world (served state event) := by
  obtain ⟨-, hpersists⟩ := hevent
  cases event with
  | client client move =>
      cases move with
      | connect id => exact ⟨hpersists _ (List.mem_singleton_self _), trivial⟩
      | _ => trivial
  | verify move =>
      cases move with
      | connect id => exact ⟨hpersists _ (List.mem_singleton_self _), trivial⟩
      | _ => trivial
  | probe id => exact ⟨hpersists _ (List.mem_singleton_self _), trivial⟩
  | server event => exact ⟨hpersists _ (List.mem_singleton_self _), trivial⟩

/-- **The run lemma.** -/
theorem tested_run
    (hrun : Run.Guarded (Jepsen.step load) (Admitted load) (State.start interval) events)
    (hids : (servedBy load interval events).countP WorldEvent.accepts < 2 ^ 32 - 1) :
    (Run.run (Jepsen.step load) (State.start interval) events).world
        = Run.run World.step (World.start interval) (servedBy load interval events)
      ∧ Run.Guarded World.step (World.Persists Resp.numbering) (World.start interval)
        (servedBy load interval events)
      ∧ Tested load (Run.run (Jepsen.step load) (State.start interval) events)
        (Run.trace World.step World.executes (World.start interval) (servedBy load interval events)) := by
  induction events using List.reverseRecOn with
  | nil => exact ⟨rfl, trivial, tested_start⟩
  | append_singleton before event ih =>
      obtain ⟨hbefore, hevent, -⟩ := (Run.guarded_append _).mp hrun
      have hsplit : servedBy load interval (before ++ [event]) = servedBy load interval before
          ++ served (Run.run (Jepsen.step load) (State.start interval) before) event := by
        rw [servedBy, servedBy, Run.trace_append]
        exact congrArg _ (List.append_nil _)
      rw [hsplit] at hids ⊢
      have hless : (servedBy load interval before).countP WorldEvent.accepts < 2 ^ 32 - 1 := by
        rw [List.countP_append] at hids
        omega
      obtain ⟨hworld, hguarded, htested⟩ := ih hbefore hless
      have hcontinues : World.Continues Resp.numbering (fun _ => ()) (fun _ _ => ()) _ _ _ :=
        World.continues_run (fun _ _ _ _ _ _ => rfl) hguarded hless
      rw [← hworld] at hcontinues
      obtain ⟨next, hnext⟩ := Option.isSome_iff_exists.mp hevent.1
      have hlast : Run.run (Jepsen.step load) (State.start interval) (before ++ [event]) = next := by
        rw [Run.run_append, Run.run_cons, Run.run_nil, Jepsen.step, hnext, Option.getD_some]
      obtain ⟨hmoves, hnexts⟩ := htested.step hcontinues hnext
      rw [hlast, Run.run_append, Run.trace_append, Run.guarded_append, ← hworld]
      exact ⟨hmoves, ⟨hguarded, guarded_served hevent⟩, hnexts⟩

/-- **No acknowledged write is lost.** In every run of the harness, whenever the server is killed and
started again and however clients, connections and executor interleave: a restart would find every
write that a client has had acknowledged, and what is read back counts the reads that failed as lost,
and nothing else as lost or torn. -/
theorem acknowledged_survive
    (hrun : Run.Guarded (Jepsen.step load) (Admitted load) (State.start interval) events)
    (hids : (servedBy load interval events).countP WorldEvent.accepts < 2 ^ 32 - 1) :
    let state := Run.run (Jepsen.step load) (State.start interval) events
    (∀ client, ∀ entry ∈ (state.clients client).acked, ∀ next,
        (startEngine state.world.history.disk next).state.map[entry.1]? = some (asBytes entry.2))
      ∧ state.lost = state.stage.failed ∧ state.torn = 0 := by
  intro state
  obtain ⟨hworld, hguarded, htested⟩ := tested_run hrun hids
  have hcontinues : World.Continues Resp.numbering (fun _ => ()) (fun _ _ => ()) _ _ _ :=
    World.continues_run (fun _ _ _ _ _ _ => rfl) hguarded hids
  have hruns := World.runs_atomic (World.Persists.atomic hguarded)
  refine ⟨fun client entry hentry next => ?_, htested.lost, htested.torn⟩
  obtain ⟨number, round, rfl, hwritten⟩ := htested.acked client entry hentry
  have hstored := (World.restart_finds hruns hcontinues.appended next).1
  rw [← hworld] at hstored
  rw [hstored]
  refine stored_val (fun execution hexecution => ?_) hwritten _
  obtain ⟨words, hrequest, hknown⟩ := htested.executed execution hexecution
  exact (op_of_known (hcontinues.serves.executed execution hexecution) hrequest hknown).imp_right
    And.right

/-- What the server does for a request on a connection. -/
def serving (conn : Nat) (words : List Bytes) : List Event :=
  [.server (.request conn words), .server (.send conn), .server (.execute Faults.clean 0),
    .server (.receive conn), .server (.reply conn)]

/-- One write is acknowledged, and the server dies with the record of another one written; one client
finds its connection closed, the other connects again when the server is back. -/
def crashAndVerify : List Event :=
  [.probe 1, .server (.disconnect 0), .client 0 (.connect 2), .client 1 (.connect 3), .client 0 .send]
    ++ serving 1 (setRequest (key 0 0) (val 0 0))
    ++ [.client 0 .read, .client 1 .send, .server (.request 2 (setRequest (key 1 0) (val 1 0))),
      .server (.send 2), .server (.execute ⟨.crash 64, .none⟩ 0), .client 1 .fail, .client 0 .send,
      .client 0 .eof, .client 0 .finish, .server (.restart 500), .client 1 (.connect 4), .client 1 .send]
    ++ serving 3 (setRequest (key 1 1) (val 1 1))
    ++ [.client 1 .read, .client 1 .finish, .verify (.connect 5), .verify .send]
    ++ serving 4 (getRequest (key 0 0)) ++ [.verify .read, .verify .send]
    ++ serving 4 (getRequest (key 1 1)) ++ [.verify .read]

theorem acknowledged_survive_crashAndVerify :
    let state := Run.run (Jepsen.step ⟨2, 2⟩) (State.start 500) crashAndVerify
    state.stage = .verify 4 [] false ∧ state.lost = 0 ∧ state.torn = 0 := by
  intro state
  obtain ⟨-, hlost, htorn⟩ := @acknowledged_survive ⟨2, 2⟩ 500 crashAndVerify (by decide +kernel)
    (by decide +kernel)
  have hstage : state.stage = .verify 4 [] false := by decide +kernel
  exact ⟨hstage, hlost.trans (congrArg Stage.failed hstage), htorn⟩

end Steps

end Jepsen

end OneBarrier
