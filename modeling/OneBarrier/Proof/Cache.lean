import OneBarrier.Proof.CacheCommands
import OneBarrier.Proof.LinCheck

/-!
# The cache is linearizable

Commands that nobody disturbs linearize in the order of the ops they took effect with. What the order
leads to is the store, so an op has its answer from the map; a connection has its call in the order
from that op on, up to its reply.
-/

namespace OneBarrier

open Wire Utf8 Durable Linear Rest

/-! ### Connections -/

/-- The reply of a connection, once it is settled. -/
def Phase.turn {frontend : Frontend} : Phase frontend → Option (Turn frontend.Conn)
  | .serving conv => conv.result
  | .applying _ next (some out) => (next (some out)).result
  | _ => none

theorem Phase.isClosed_of_conv {frontend : Frontend} {phase : Phase frontend}
    (hbusy : phase.conv ≠ none) : phase.isClosed = false := by
  cases phase with
  | closed => exact absurd rfl hbusy
  | idle | serving _ | applying _ _ _ | counting _ _ => rfl

/-- The requests a connection has begun to serve. -/
def Thread.begun (thread : Thread memcache) : Nat :=
  thread.earlier.length + thread.phase.conv.isSome.toNat

namespace World

open Memcache

/-- Keys are texts, and no op is disturbed. -/
def Steady (world : World memcache) : WorldEvent memcache → Prop
  | .request _ request => ∀ call ∈ callOf request, ∀ key ∈ call.keys, IsText key
  | .execute _ _ => ∀ engine ∈ world.history.engine, ∀ job ∈ world.queue.head?,
      ∀ op ∈ job.req.op, ∀ command ∈ (world.threads job.handle).request,
        Undisturbed engine.state (Command.parts command) (world.threads job.handle).answers op
  | _ => True

instance (world : World memcache) : (event : WorldEvent memcache) → Decidable (world.Steady event)
  | .request _ request => inferInstanceAs
      (Decidable (∀ call ∈ callOf request, ∀ key ∈ call.keys, IsText key))
  | .execute _ _ => inferInstanceAs (Decidable (∀ engine ∈ world.history.engine,
      ∀ job ∈ world.queue.head?, ∀ op ∈ job.req.op, ∀ command ∈ (world.threads job.handle).request,
        Undisturbed engine.state (Command.parts command) (world.threads job.handle).answers op))
  | .accept .. | .disconnect _ | .send _ | .receive _ | .reply _ | .crash | .restart _ => isTrue trivial

/-- A call under way has been made, and is in the order once its reply is settled. -/
structure Placed (trace : List (Linear.Action Call Bytes)) (order : List (Taken Call Bytes))
    (thread : Thread memcache) (call : Call) : Prop where
  text : ∀ key ∈ call.keys, IsText key
  invoked : .invoke thread.callId call ∈ trace
  waiting : thread.phase.turn = none → thread.callId ∉ order.map Taken.call
  settled : ∀ turn ∈ thread.phase.turn,
    ∃ taken ∈ order, taken.call = thread.callId ∧ taken.output = turn.output

/-- The order linearizes what the clients have seen, and leads to the store. -/
structure Linearized (initial : Map) (trace : List (Linear.Action Call Bytes))
    (order : List (Taken Call Bytes)) (world : World memcache) : Prop where
  linear : Linearizes Memcache.respond initial trace order
  store : ∀ engine ∈ world.history.engine,
    final Memcache.respond initial order = Map.of engine.state
  threads : ∀ handle, (world.threads handle).phase.conv ≠ none → ∀ command : Command,
    (world.threads handle).request = some command → ∀ call, callOf command = some call →
      Placed trace order (world.threads handle) call
  known : ∀ taken ∈ order, ∃ client count, taken.call = Nat.pair client count
    ∧ client < world.nextId.toNat ∧ ∀ handle, (world.threads handle).phase.isClosed = false →
      (world.threads handle).client.toNat = client → count < (world.threads handle).begun

variable {world : World memcache} {initial : Map} {trace : List (Linear.Action Call Bytes)}
  {order : List (Taken Call Bytes)} {handle : Nat}

/-- **The frame lemma.** One connection changes, and what is added to the order is its call: the others
are where they were. -/
theorem Linearized.replace (hlinear : world.Linearized initial trace order) {next : World memcache}
    {thread : Thread memcache} {more : List (Linear.Action Call Bytes)}
    {added : List (Taken Call Bytes)}
    (hthreads : next.threads = Function.update world.threads handle thread)
    (hnextId : world.nextId.toNat ≤ next.nextId.toNat)
    (hlinearizes : Linearizes Memcache.respond initial (trace ++ more) (order ++ added))
    (hstore : ∀ engine ∈ next.history.engine,
      final Memcache.respond initial (order ++ added) = Map.of engine.state)
    (hplaced : thread.phase.conv ≠ none → ∀ command : Command, thread.request = some command →
      ∀ call, callOf command = some call → Placed (trace ++ more) (order ++ added) thread call)
    (hbegun : thread.phase.isClosed = false → world.nextId.toNat ≤ thread.client.toNat
      ∨ (world.threads handle).phase.isClosed = false ∧ thread.client = (world.threads handle).client
        ∧ (world.threads handle).begun ≤ thread.begun)
    (hadded : ∀ taken ∈ added, taken.call = thread.callId ∧ thread.earlier.length < thread.begun
      ∧ thread.client.toNat < next.nextId.toNat ∧ ∀ other ≠ handle,
        (world.threads other).phase.isClosed = false →
          (world.threads other).client ≠ thread.client) :
    next.Linearized initial (trace ++ more) (order ++ added) := by
  refine ⟨hlinearizes, hstore, fun other hbusy command hcommand call hcall => ?_,
    fun taken htaken => ?_⟩
  · rw [hthreads] at hbusy hcommand ⊢
    by_cases hother : other = handle
    · rw [hother, Function.update_self] at hbusy hcommand ⊢
      exact hplaced hbusy command hcommand call hcall
    · rw [Function.update_of_ne hother] at hbusy hcommand ⊢
      obtain ⟨htext, hinvoked, hwaiting, hsettled⟩ :=
        hlinear.threads other hbusy command hcommand call hcall
      refine ⟨htext, List.mem_append_left _ hinvoked, fun hnone hmem => ?_, fun turn hturn => ?_⟩
      · rw [List.map_append, List.mem_append] at hmem
        obtain hmem | hmem := hmem
        · exact hwaiting hnone hmem
        · obtain ⟨taken, htaken, hcall⟩ := List.mem_map.mp hmem
          obtain ⟨hid, -, -, hapart⟩ := hadded taken htaken
          obtain ⟨hclient, -⟩ := Nat.pair_eq_pair.mp (hcall.symm.trans hid)
          exact hapart other hother (Phase.isClosed_of_conv hbusy) (UInt32.toNat_inj.mp hclient)
      · obtain ⟨taken, htaken, hfields⟩ := hsettled turn hturn
        exact ⟨taken, List.mem_append_left _ htaken, hfields⟩
  · obtain hold | hnew := List.mem_append.mp htaken
    · obtain ⟨client, count, hpair, hbelow, hcounts⟩ := hlinear.known taken hold
      refine ⟨client, count, hpair, hbelow.trans_le hnextId, fun other hopen hclient => ?_⟩
      rw [hthreads] at hopen hclient ⊢
      by_cases hother : other = handle
      · rw [hother, Function.update_self] at hopen hclient ⊢
        obtain hlater | ⟨hbefore, hsame, hle⟩ := hbegun hopen
        · omega
        · exact (hcounts handle hbefore (hsame ▸ hclient)).trans_le hle
      · rw [Function.update_of_ne hother] at hopen hclient ⊢
        exact hcounts other hopen hclient
    · obtain ⟨hid, hunder, hbelow, hapart⟩ := hadded taken hnew
      refine ⟨_, _, hid, hbelow, fun other hopen hclient => ?_⟩
      rw [hthreads] at hopen hclient ⊢
      by_cases hother : other = handle
      · rw [hother, Function.update_self]
        exact hunder
      · rw [Function.update_of_ne hother] at hopen hclient
        exact absurd (UInt32.toNat_inj.mp hclient) (hapart other hother hopen)

/-- A connection that has nothing under way has a new number for its next call. -/
theorem Linearized.notMem (hlinear : world.Linearized initial trace order)
    (hphase : (world.threads handle).phase = .idle) :
    (world.threads handle).callId ∉ order.map Taken.call := by
  intro hmem
  obtain ⟨taken, htaken, hcall⟩ := List.mem_map.mp hmem
  obtain ⟨client, count, hpair, -, hcounts⟩ := hlinear.known taken htaken
  obtain ⟨hclient, hcount⟩ := Nat.pair_eq_pair.mp (hpair.symm.trans hcall)
  have hlt := hcounts handle (by rw [hphase]; rfl) hclient.symm
  rw [Thread.begun, hphase, ← hcount] at hlt
  exact Nat.lt_irrefl _ hlt

/-- One connection goes on with its call. -/
theorem Linearized.goes_on (hlinear : world.Linearized initial trace order) {next : World memcache}
    {thread : Thread memcache} (hthreads : next.threads = Function.update world.threads handle thread)
    (hnextId : next.nextId = world.nextId)
    (hstore : ∀ engine ∈ next.history.engine,
      final Memcache.respond initial order = Map.of engine.state)
    (hclient : thread.client = (world.threads handle).client)
    (hearlier : thread.earlier = (world.threads handle).earlier)
    (hrequest : thread.request = (world.threads handle).request)
    (hbusy : (world.threads handle).phase.conv ≠ none) (hconv : thread.phase.conv ≠ none)
    (hturn : thread.phase.turn = (world.threads handle).phase.turn) :
    next.Linearized initial trace order := by
  have hid : thread.callId = (world.threads handle).callId := by
    rw [Thread.callId, Thread.callId, hclient, hearlier]
  have hplaced : thread.phase.conv ≠ none → ∀ command : Command, thread.request = some command →
      ∀ call, callOf command = some call → Placed trace order thread call := by
    intro _ command hcommand call hcall
    obtain ⟨htext, hinvoked, hwaiting, hsettled⟩ :=
      hlinear.threads handle hbusy command (hrequest.symm.trans hcommand) call hcall
    rw [← hid, ← hturn] at hwaiting hsettled
    exact ⟨htext, hid ▸ hinvoked, hwaiting, hsettled⟩
  have hbegun : (world.threads handle).begun ≤ thread.begun := by
    rw [Thread.begun, Thread.begun, hearlier, Option.isSome_iff_ne_none.mpr hbusy,
      Option.isSome_iff_ne_none.mpr hconv]
  rw [← List.append_nil order] at hstore hplaced ⊢
  rw [← List.append_nil trace] at hplaced ⊢
  refine hlinear.replace hthreads (Nat.le_of_eq (congrArg UInt32.toNat hnextId.symm)) ?_ hstore hplaced
    (fun _ => .inr ⟨Phase.isClosed_of_conv hbusy, hclient, hbegun⟩)
    fun _ htaken => absurd htaken List.not_mem_nil
  rw [List.append_nil, List.append_nil]
  exact hlinear.linear

/-! ### The steps -/

/-- A connection comes or goes. -/
theorem Linearized.idle (hlinear : world.Linearized initial trace order) {next : World memcache}
    {thread : Thread memcache} (hthreads : next.threads = Function.update world.threads handle thread)
    (hnextId : world.nextId.toNat ≤ next.nextId.toNat) (hhistory : next.history = world.history)
    (hconv : thread.phase.conv = none)
    (hnew : thread.phase.isClosed = false → world.nextId.toNat ≤ thread.client.toNat) :
    next.Linearized initial trace order := by
  rw [← List.append_nil order, ← List.append_nil trace]
  refine hlinear.replace hthreads hnextId ?_ ?_ (fun hbusy => absurd hconv hbusy)
    (fun hopen => .inl (hnew hopen)) fun _ htaken => absurd htaken List.not_mem_nil
  · rw [List.append_nil, List.append_nil]
    exact hlinear.linear
  · rw [hhistory, List.append_nil]
    exact hlinear.store

theorem Linearized.accept (hlinear : world.Linearized initial trace order)
    (hrunning : world.running = true) (hclosed : (world.threads handle).phase = .closed)
    (hroom : world.nextId.toNat + 1 < 2 ^ 32) :
    (world.step (.accept handle world.nextId)).Linearized initial trace order := by
  have hnext : (world.nextId + 1).toNat = world.nextId.toNat + 1 := by
    rw [UInt32.toNat_add]
    exact Nat.mod_eq_of_lt hroom
  simp only [World.step, hrunning, hclosed]
  exact hlinear.idle rfl (by dsimp only; omega) rfl rfl fun _ => Nat.le_refl _

theorem Linearized.disconnect (hlinear : world.Linearized initial trace order) :
    (world.step (.disconnect handle)).Linearized initial trace order := by
  rw [World.step]
  split
  · exact hlinear.idle rfl (Nat.le_refl _) rfl rfl fun hopen => by cases hopen
  · exact hlinear

/-- A connection takes a request, and its call is made. -/
theorem Linearized.request (hlinear : world.Linearized initial trace order)
    (hphase : (world.threads handle).phase = .idle) (request : Command)
    (htext : ∀ call ∈ callOf request, ∀ key ∈ call.keys, IsText key) :
    (world.step (.request handle request)).Linearized initial
      (trace ++ world.shows (.request handle request)) order := by
  have hnew := hlinear.notMem hphase
  have hshows : world.shows (.request handle request)
      = ((callOf request).map fun call => .invoke (world.threads handle).callId call).toList := by
    simp only [shows, hphase]
    cases callOf request <;> rfl
  have hlinearizes : Linearizes Memcache.respond initial
      (trace ++ world.shows (.request handle request)) order := by
    rw [hshows]
    cases callOf request with
    | none => exact (List.append_nil trace).symm ▸ hlinear.linear
    | some call => exact hlinear.linear.invoke call hnew
  simp only [World.step, hphase]
  rw [← List.append_nil order] at hlinearizes hnew ⊢
  refine hlinear.replace rfl (Nat.le_refl _) hlinearizes ?_ ?_ (fun _ => .inr ⟨?_, rfl, ?_⟩)
    fun _ htaken => absurd htaken List.not_mem_nil
  · rw [List.append_nil]
    exact hlinear.store
  · intro _ command hcommand call hcall
    obtain rfl : request = command := Option.some.inj hcommand
    have hturn : (serve (world.threads handle).client (world.threads handle).conn request).result
        = none := result_serve hcall _ _
    refine ⟨htext call hcall, ?_, fun _ => hnew, fun turn hmem => ?_⟩
    · rw [hshows, hcall]
      exact List.mem_append_right _ (List.mem_singleton_self _)
    · cases hturn.symm.trans hmem
  · rw [hphase]
    rfl
  · rw [Thread.begun, hphase]
    exact Nat.le_succ _

/-- A connection replies, and its call returns. -/
theorem Linearized.reply (hlinear : world.Linearized initial trace order) {turn : Turn memcache.Conn}
    (hphase : (world.threads handle).phase = .serving (.ret turn)) {command : Command}
    (hcommand : (world.threads handle).request = some command) :
    (world.step (.reply handle)).Linearized initial (trace ++ world.shows (.reply handle)) order := by
  have hshows : world.shows (.reply handle) = ((callOf command).map fun _ =>
      .respond (world.threads handle).callId turn.output).toList := by
    have hbind : (world.threads handle).request.bind callOf = callOf command := by
      rw [hcommand]
      rfl
    simp only [shows, hphase, hbind]
    cases callOf command <;> rfl
  have hlinearizes : Linearizes Memcache.respond initial (trace ++ world.shows (.reply handle))
      order := by
    rw [hshows]
    cases hcall : callOf command with
    | none => exact (List.append_nil trace).symm ▸ hlinear.linear
    | some call =>
        have hbusy : (world.threads handle).phase.conv ≠ none := by rw [hphase]; rintro ⟨⟩
        have hturn : turn ∈ (world.threads handle).phase.turn := by rw [hphase]; rfl
        obtain ⟨taken, htaken, hid, houtput⟩ :=
          (hlinear.threads handle hbusy command hcommand call hcall).settled turn hturn
        rw [← hid, ← houtput]
        exact hlinear.linear.respond htaken
  have hserved : (world.threads handle).request.toList.length = 1 := by
    rw [hcommand]
    rfl
  simp only [World.step, World.reply, hphase]
  rw [← List.append_nil order] at hlinearizes ⊢
  refine hlinear.replace rfl (Nat.le_refl _) hlinearizes ?_ (fun hbusy => ?_)
    (fun _ => .inr ⟨?_, rfl, ?_⟩) fun _ htaken => absurd htaken List.not_mem_nil
  · rw [List.append_nil]
    exact hlinear.store
  · dsimp only at hbusy
    split at hbusy <;> exact absurd rfl hbusy
  · rw [hphase]
    rfl
  · rw [Thread.begun, Thread.begun, hphase]
    dsimp only
    rw [List.length_append, hserved]
    exact Nat.le_add_right _ _

/-- The executor takes an op, and its command takes effect or goes on. -/
theorem Linearized.deliver (hlinear : world.Linearized initial trace order) {handed : Nat}
    (hids : world.Identities Memcache.numbering handed) {engine : Engine KvStore} {faults : Faults}
    {ts clock : UInt64} {job : Job} {queue : List Job} {op : Op}
    {next : Option Output → Conv (Turn memcache.Conn)} (hengine : world.history.engine = some engine)
    (hphase : (world.threads job.handle).phase = .applying op next none) {command : Command}
    (hcommand : (world.threads job.handle).request = some command)
    (hreaches : (serve (world.threads job.handle).client (world.threads job.handle).conn
      command).Reaches (world.threads job.handle).answers (.apply op next))
    (hundisturbed : Undisturbed engine.state command.parts (world.threads job.handle).answers op)
    (hlive : (World.deliver { world with clock, queue } engine faults ts job op).history.engine
      ≠ none) :
    ∃ more, (World.deliver { world with clock, queue } engine faults ts job op).Linearized initial
      trace (order ++ more) := by
  have hfresh : (dedup KvStore).fresh engine.toCore (ts, op) := hids.fresh_of_waiting hengine hphase
  obtain ⟨live, hsome⟩ := Option.ne_none_iff_exists'.mp hlive
  obtain ⟨hafter, out, hok⟩ := @engine_deliver _ { world with clock, queue } engine faults ts job op
    hengine _ hsome
  obtain ⟨logged, hthreads⟩ := @threads_deliver_ok _ { world with clock, queue } engine faults ts job
    op next out hphase hok
  have hnextId := nextId_deliver { world with clock, queue } engine faults ts job op
  have hout : out = (engine.state.apply op).2 := (output_of_deliver_ok hfresh hok).2
  have hstate : live.state = (engine.state.apply op).1 := by
    rw [hafter, deliver_toCore, Journal.Machine.deliver_of_fresh hfresh, state_apply hfresh]
    rfl
  generalize World.deliver { world with clock, queue } engine faults ts job op = after
    at hsome hthreads hnextId ⊢
  dsimp only at hthreads hnextId
  have hbusy : (world.threads job.handle).phase.conv ≠ none := by rw [hphase]; rintro ⟨⟩
  have hopen := Phase.isClosed_of_conv hbusy
  obtain ⟨call, hcall⟩ : ∃ call, callOf command = some call := by
    refine Option.ne_none_iff_exists'.mp fun hnone => ?_
    obtain ⟨turn, hserve⟩ := serve_of_none hnone (world.threads job.handle).client
      (world.threads job.handle).conn
    rw [hserve] at hreaches
    cases (Conv.reaches_ret hreaches).2
  have hplaced := hlinear.threads job.handle hbusy command hcommand call hcall
  have hsettles := settles_of_reaches hcall hplaced.text hundisturbed hreaches
  have hstore := hlinear.store engine hengine
  cases hresult : (next (some (engine.state.apply op).2)).result with
  | none =>
      have hsame := hsettles.goes_on hresult
      refine ⟨[], ?_⟩
      rw [List.append_nil]
      refine hlinear.goes_on hthreads hnextId (fun other hother => ?_) rfl rfl rfl hbusy (by rintro ⟨⟩)
        (by rw [hphase, hout]; exact hresult)
      obtain rfl := Option.some.inj (hsome.symm.trans hother)
      rw [hstore, hstate]
      exact congrArg Map.of hsame.symm
  | some turn =>
      obtain ⟨hmap, houtput⟩ := Prod.ext_iff.mp (hsettles.ends hresult)
      have hlinearizes : Linearizes Memcache.respond initial trace
          (order ++ [⟨(world.threads job.handle).callId, call, turn.output⟩]) := by
        refine hlinear.linear.take hplaced.invoked (hplaced.waiting (by rw [hphase]; rfl)) ?_
        rw [hstore]
        exact houtput.symm
      have hturn : (Phase.applying op next (some out) : Phase memcache).turn = some turn := by
        rw [hout]
        exact hresult
      refine ⟨[⟨(world.threads job.handle).callId, call, turn.output⟩], ?_⟩
      rw [← List.append_nil trace] at hlinearizes ⊢
      refine hlinear.replace hthreads (Nat.le_of_eq (congrArg UInt32.toNat hnextId.symm)) hlinearizes
        ?_ ?_ (fun _ => .inr ⟨hopen, rfl, ?_⟩) ?_
      · intro other hother
        obtain rfl := Option.some.inj (hsome.symm.trans hother)
        have hfinal : final Memcache.respond initial
            (order ++ [⟨(world.threads job.handle).callId, call, turn.output⟩])
            = (Memcache.respond (final Memcache.respond initial order) call).1 := List.foldl_append
        rw [hfinal, hstore, hstate]
        exact hmap
      · intro _ other hother made hmade
        obtain rfl : command = other := Option.some.inj (hcommand.symm.trans hother)
        obtain rfl : call = made := Option.some.inj (hcall.symm.trans hmade)
        refine ⟨hplaced.text, List.mem_append_left _ hplaced.invoked, fun hnone => ?_,
          fun settled hsettled => ?_⟩
        · cases hturn.symm.trans hnone
        · obtain rfl : turn = settled := Option.some.inj (hturn.symm.trans hsettled)
          exact ⟨_, List.mem_append_right _ (List.mem_singleton_self _), rfl, rfl⟩
      · rw [Thread.begun, hphase]
        exact Nat.le_refl _
      · intro taken htaken
        rw [List.mem_singleton.mp htaken]
        refine ⟨rfl, Nat.lt_succ_self _, hnextId ▸ hids.known job.handle hopen, ?_⟩
        exact fun other hother hothers hclient =>
          hother (hids.distinct other job.handle hothers hopen hclient)

section Serves

variable {handed : Nat} {start : KvStore} {executions : List (Execution memcache)}

theorem Serves.uncounted (hserves : world.Serves Memcache.numbering (fun _ => ()) (fun _ _ => ()) handed
    start executions) {conv : Conv (Turn memcache.Conn)}
    (hconv : (world.threads handle).phase.conv = some conv) : conv.Uncounted := by
  obtain ⟨command, -, hreaches⟩ := (hserves.follows handle).reaches conv hconv
  exact hreaches.uncounted (uncounted_serve _ _ command)

theorem Linearized.execute (hlinear : world.Linearized initial trace order)
    (hserves : world.Serves Memcache.numbering (fun _ => ()) (fun _ _ => ()) handed start executions)
    {faults : Faults} {tick : UInt64} (hsteady : world.Steady (.execute faults tick))
    (hlive : (world.execute faults tick).history.engine ≠ none) :
    ∃ more, (world.execute faults tick).Linearized initial trace (order ++ more) := by
  have hsame : world.Linearized initial trace (order ++ []) := by rwa [List.append_nil]
  cases hengine : world.history.engine with
  | none =>
      simp only [World.execute, hengine]
      exact ⟨[], hsame⟩
  | some engine =>
      cases hqueue : world.queue with
      | nil =>
          simp only [World.execute, hengine, hqueue]
          exact ⟨[], hsame⟩
      | cons job queue =>
          have hawaits := hserves.wired.awaited job (by simp [hqueue])
          cases hreq : job.req with
          | len =>
              rw [hreq] at hawaits
              obtain ⟨next, hphase⟩ := hawaits
              have hconv : (world.threads job.handle).phase.conv = some (.len next) := by
                rw [hphase]
                rfl
              exact (hserves.uncounted hconv).elim
          | apply op =>
              rw [hreq] at hawaits
              obtain ⟨next, hphase⟩ := hawaits
              have hconv : (world.threads job.handle).phase.conv = some (.apply op next) := by
                rw [hphase]
                rfl
              obtain ⟨command, hcommand, hreaches⟩ := (hserves.follows job.handle).reaches _ hconv
              have hundisturbed := hsteady engine hengine job (by rw [hqueue]; rfl) op
                (by rw [hreq]; rfl) command hcommand
              have hexecute : world.execute faults tick
                  = World.deliver { world with clock := world.clock + 1, queue } engine faults
                    (max (world.clock + 1) tick) job op := by
                simp only [World.execute, hengine, hqueue, hreq]
              rw [hexecute] at hlive ⊢
              exact hlinear.deliver hserves.identities hengine hphase hcommand hreaches hundisturbed
                hlive

theorem Linearized.send (hlinear : world.Linearized initial trace order)
    (hlive : world.history.engine ≠ none) (handle : Nat) :
    (world.send handle).Linearized initial trace order := by
  have hsome : world.history.engine.isSome = true := Option.isSome_iff_ne_none.mpr hlive
  rw [World.send]
  dsimp only
  split
  · rename_i op next hphase
    rw [if_pos hsome]
    exact hlinear.goes_on rfl rfl hlinear.store rfl rfl rfl (by rw [hphase]; rintro ⟨⟩) (by rintro ⟨⟩)
      (by rw [hphase]; rfl)
  · rename_i next hphase
    rw [if_pos hsome]
    exact hlinear.goes_on rfl rfl hlinear.store rfl rfl rfl (by rw [hphase]; rintro ⟨⟩) (by rintro ⟨⟩)
      (by rw [hphase]; rfl)
  · exact hlinear

theorem Linearized.receive (hlinear : world.Linearized initial trace order)
    (hserves : world.Serves Memcache.numbering (fun _ => ()) (fun _ _ => ()) handed start executions)
    (hlive : world.history.engine ≠ none) (handle : Nat) :
    (world.receive handle).Linearized initial trace order := by
  have hsome : world.history.engine.isSome = true := Option.isSome_iff_ne_none.mpr hlive
  have hcounts : ∀ next answer, (world.threads handle).phase ≠ .counting next answer := by
    intro next answer hphase
    have hconv : (world.threads handle).phase.conv = some (.len next) := by
      rw [hphase]
      rfl
    exact hserves.uncounted hconv
  rw [World.receive]
  dsimp only
  split
  · rename_i op next out hphase
    exact hlinear.goes_on rfl rfl hlinear.store rfl rfl rfl (by rw [hphase]; rintro ⟨⟩) (by rintro ⟨⟩)
      (by rw [hphase]; rfl)
  · rw [if_pos hsome]
    exact hlinear
  · rename_i next count hphase
    exact absurd hphase (hcounts _ _)
  · rename_i next hphase
    exact absurd hphase (hcounts _ _)
  · exact hlinear

/-- A process whose executor is gone has none until it restarts. -/
theorem live_of_step {event : WorldEvent memcache} (hstays : event.restarts = false)
    (hlive : (world.step event).history.engine ≠ none) : world.history.engine ≠ none := by
  intro hgone
  refine hlive ?_
  cases event with
  | accept handle client =>
      rw [World.step]
      split <;> exact hgone
  | disconnect handle =>
      rw [World.step]
      split <;> exact hgone
  | request handle request =>
      rw [World.step]
      split <;> exact hgone
  | send handle => exact (congrArg History.engine (history_send handle)).trans hgone
  | receive handle => exact (congrArg History.engine (history_receive handle)).trans hgone
  | reply handle => exact (congrArg History.engine (history_reply handle)).trans hgone
  | execute faults tick =>
      rw [World.step, World.execute, hgone]
      exact hgone
  | crash => rfl
  | restart interval => cases hstays

/-- **The step lemma for the order of calls.** -/
theorem Linearized.step (hlinear : world.Linearized initial trace order)
    (hserves : world.Serves Memcache.numbering (fun _ => ()) (fun _ _ => ()) handed start executions)
    {event : WorldEvent memcache} (hlives : world.Lives Memcache.numbering event)
    (hroom : handed + event.accepts.toNat < 2 ^ 32 - 1) (hsteady : world.Steady event)
    (hlive : (world.step event).history.engine ≠ none) :
    ∃ more, (world.step event).Linearized initial (trace ++ world.shows event) (order ++ more) := by
  obtain ⟨hadmits, hstays⟩ := hlives
  have hbefore := live_of_step hstays hlive
  have hquiet : ∀ next : World memcache, next.Linearized initial trace order →
      ∃ more, next.Linearized initial (trace ++ []) (order ++ more) := by
    intro next hnext
    refine ⟨[], ?_⟩
    rwa [List.append_nil, List.append_nil]
  cases event with
  | accept handle client =>
      obtain ⟨hrunning, hclosed, rfl⟩ := hadmits
      have hphase := Phase.eq_closed_of_isClosed hclosed
      have hnextId := hserves.identities.nextId
      have hhanded : handed + 1 < 2 ^ 32 - 1 := hroom
      exact hquiet _ (hlinear.accept hrunning hphase (by omega))
  | disconnect handle => exact hquiet _ hlinear.disconnect
  | request handle request =>
      cases hphase : (world.threads handle).phase with
      | idle =>
          refine ⟨[], ?_⟩
          rw [List.append_nil]
          exact hlinear.request hphase request hsteady
      | closed | serving _ | applying _ _ _ | counting _ _ =>
          simp only [World.step, shows, hphase]
          exact hquiet _ hlinear
  | send handle => exact hquiet _ (hlinear.send hbefore handle)
  | receive handle => exact hquiet _ (hlinear.receive hserves hbefore handle)
  | reply handle =>
      by_cases hturn : ∃ turn, (world.threads handle).phase = .serving (.ret turn)
      · obtain ⟨turn, hphase⟩ := hturn
        obtain ⟨command, hcommand, -⟩ := (hserves.follows handle).reaches (.ret turn) (by
          rw [hphase]
          rfl)
        refine ⟨[], ?_⟩
        rw [List.append_nil]
        exact hlinear.reply hphase hcommand
      · have hstep : world.step (.reply handle) = world := by
          rw [World.step, World.reply]
          dsimp only
          split
          · exact absurd ⟨_, ‹_›⟩ hturn
          · rfl
        have hshows : world.shows (.reply handle) = [] := by
          rw [shows]
          split
          · exact absurd ⟨_, ‹_›⟩ hturn
          · rfl
        rw [hstep, hshows]
        exact hquiet _ hlinear
  | execute faults tick =>
      obtain ⟨more, hnext⟩ := hlinear.execute hserves hsteady hlive
      exact ⟨more, (List.append_nil trace).symm ▸ hnext⟩
  | crash => exact absurd rfl hlive
  | restart interval => cases hstays

end Serves

/-- **The run lemma for the order of calls.** -/
theorem linearized_run {disk : Disk} {interval : UInt64} {events : List (WorldEvent memcache)}
    (hsteady : Run.Guarded step (fun world event => (world.Lives Memcache.numbering event
      ∧ world.SeqLeft Memcache.numbering event) ∧ world.Steady event) (boot disk interval) events)
    (hids : (startEngine disk interval).maxClient.toNat + events.countP WorldEvent.accepts
      < 2 ^ 32 - 1)
    (hlive : (Run.run step (boot disk interval : World memcache) events).history.engine ≠ none) :
    ∃ order, (Run.run step (boot disk interval : World memcache) events).Linearized
      (Map.of (startEngine disk interval).state)
      (Run.trace step shows (boot disk interval : World memcache) events) order := by
  induction events using List.reverseRecOn with
  | nil =>
      refine ⟨[], linearizes_nil, ?_, fun handle hbusy => absurd rfl hbusy,
        fun _ htaken => absurd htaken List.not_mem_nil⟩
      rintro engine ⟨⟩
      rfl
  | append_singleton before event ih =>
      obtain ⟨hbefore, ⟨⟨hlives, -⟩, hevent⟩, -⟩ := (Run.guarded_append _).mp hsteady
      have hcount : (before ++ [event]).countP WorldEvent.accepts
          = before.countP WorldEvent.accepts + event.accepts.toNat := by
        rw [List.countP_append, List.countP_singleton]
        cases event.accepts <;> rfl
      rw [hcount, ← Nat.add_assoc] at hids
      rw [Run.run_append, Run.run_cons, Run.run_nil] at hlive
      obtain ⟨order, hlinear⟩ := ih hbefore (by omega) (live_of_step hlives.2 hlive)
      have hserves := @serves_run memcache Unit (fun _ => ()) (fun _ _ => ()) Memcache.numbering
        (fun _ _ _ _ _ _ => rfl) disk interval before
        (hbefore.mono (fun _ => True) (fun _ _ _ _ => trivial) (fun _ _ hguard _ => hguard.1) trivial)
        (by omega)
      obtain ⟨more, hnext⟩ := hlinear.step hserves hlives hids hevent hlive
      rw [Run.run_append, Run.trace_append, Run.run_cons, Run.run_nil, Run.trace, Run.trace,
        List.append_nil]
      exact ⟨order ++ more, hnext⟩

end World

/-- **The cache is linearizable.** One process on any directory, any connections, commands and
interleaving, as long as its executor lives, the keys are texts and no command is disturbed: in the
order of the ops they took effect with, the calls linearize what the clients see, and lead to the
store. -/
theorem cache_linearizable {disk : Disk} {interval : UInt64} {events : List (WorldEvent memcache)}
    (hsteady : Run.Guarded World.step (fun world event => (world.Lives Memcache.numbering event
      ∧ world.SeqLeft Memcache.numbering event) ∧ world.Steady event) (World.boot disk interval) events)
    (hids : (startEngine disk interval).maxClient.toNat + events.countP WorldEvent.accepts
      < 2 ^ 32 - 1) :
    let world := Run.run World.step (World.boot disk interval : World memcache) events
    let initial := Map.of (startEngine disk interval).state
    ∀ engine ∈ world.history.engine, ∃ order,
      Linearizes Memcache.respond initial
          (Run.trace World.step World.shows (World.boot disk interval) events) order
        ∧ final Memcache.respond initial order = Map.of engine.state := by
  intro world initial engine hengine
  have hlive : world.history.engine ≠ none := by
    rw [Option.mem_def.mp hengine]
    rintro ⟨⟩
  obtain ⟨order, hlinear⟩ := World.linearized_run hsteady hids hlive
  exact ⟨order, hlinear.linear, hlinear.store engine hengine⟩

/-- A call of a connection, and its answer. -/
def callFor (handle : Nat) : List (WorldEvent memcache) :=
  [.send handle, .execute Faults.clean 0, .receive handle]

/-- A command and its reply, with this many calls in between. -/
def serveOps (handle ops : Nat) (command : memcache.Request) : List (WorldEvent memcache) :=
  .request handle command :: (List.replicate ops (callFor handle)).flatten ++ [.reply handle]

/-- A counter is set by another connection between the two ops of an `incr`; another one is looked for
between the two reads of a `get`. -/
def countAndSet : List (WorldEvent memcache) :=
  List.flatten [[.accept 0 1, .accept 1 2],
    serveOps 0 1 ⟨[asBytes "set", [110], [48], [48], [49]], asBytes "5"⟩,
    .request 0 ⟨[asBytes "incr", [110], asBytes "10"], []⟩ :: callFor 0,
    serveOps 1 1 ⟨[asBytes "set", [110], [48], [48], [49]], asBytes "7"⟩, callFor 0, [.reply 0],
    .request 1 ⟨[asBytes "get", [110], [109]], []⟩ :: callFor 1,
    serveOps 0 1 ⟨[asBytes "decr", [109], [49]], []⟩, callFor 1, [.reply 1],
    serveOps 0 1 ⟨[asBytes "delete", [110]], []⟩]

theorem cache_linearizable_countAndSet :
    let world := Run.run World.step (World.boot Disk.empty 8 : World memcache) countAndSet
    let initial := Map.of (startEngine Disk.empty 8).state
    world.replies.map Served.output = [asBytes "STORED\r\n", asBytes "STORED\r\n", asBytes "17\r\n",
        asBytes "NOT_FOUND\r\n", asBytes "VALUE n 0 2\r\n17\r\nEND\r\n", asBytes "DELETED\r\n"]
      ∧ ∀ engine ∈ world.history.engine, ∃ order,
        Linearizes Memcache.respond initial
            (Run.trace World.step World.shows (World.boot Disk.empty 8) countAndSet) order
          ∧ final Memcache.respond initial order = Map.of engine.state :=
  ⟨by decide +kernel, cache_linearizable (by decide +kernel) (by decide +kernel)⟩

/-! ### A counter below zero -/

/-- One connection sets a counter to five and takes ten from it. -/
def countDown : List (WorldEvent memcache) :=
  List.flatten [[.accept 0 1], serveOps 0 1 ⟨[asBytes "set", [107], [48], [48], [49]], asBytes "5"⟩,
    serveOps 0 2 ⟨[asBytes "decr", [107], asBytes "10"], []⟩,
    serveOps 0 1 ⟨[asBytes "get", [107]], []⟩]

theorem shows_countDown :
    Run.trace World.step World.shows (World.boot Disk.empty 8) countDown
      = [.invoke 2 (.set [107] (asBytes "5") false), .respond 2 (asBytes "STORED\r\n"),
        .invoke 3 (.count [107] (-10)), .respond 3 (asBytes "0\r\n"), .invoke 5 (.get [[107]]),
        .respond 5 (asBytes "VALUE k 0 2\r\n-5\r\nEND\r\n")] := by
  decide +kernel

/-- Without a counter command the key has the value it is set to, or none. -/
theorem final_of_set {initial : Map} (hinitial : initial [107] = none)
    {order : List (Taken Memcache.Call Bytes)}
    (hinputs : ∀ taken ∈ order, taken.input = .set [107] (asBytes "5") false
      ∨ taken.input = .get [[107]]) :
    final Memcache.respond initial order [107] = none
      ∨ final Memcache.respond initial order [107] = some (asBytes "5") := by
  induction order using List.reverseRecOn with
  | nil => exact .inl hinitial
  | append_singleton order last ih =>
      have hbefore := ih fun taken htaken => hinputs taken (List.mem_append_left _ htaken)
      have hfinal : final Memcache.respond initial (order ++ [last])
          = (Memcache.respond (final Memcache.respond initial order) last.input).1 :=
        List.foldl_append
      rw [hfinal]
      obtain hset | hget := hinputs last (List.mem_append_right _ (List.mem_singleton_self _))
      · rw [hset]
        right
        change Function.update (final Memcache.respond initial order) [107] (some (asBytes "5")) [107] = _
        exact Function.update_self _ _ _
      · rw [hget]
        exact hbefore

/-- `decr` prints zero where it stores `-5`, which the next `get` returns. -/
theorem decr_below_zero :
    let world := Run.run World.step (World.boot Disk.empty 8 : World memcache) countDown
    Run.Guarded World.step (fun world event => world.Lives Memcache.numbering event
        ∧ world.SeqLeft Memcache.numbering event) (World.boot Disk.empty 8) countDown
      ∧ world.replies.map Served.output = [asBytes "STORED\r\n", asBytes "0\r\n",
        asBytes "VALUE k 0 2\r\n-5\r\nEND\r\n"]
      ∧ ¬ ∃ order, Linearizes Memcache.respond (Map.of (startEngine Disk.empty 8).state)
        (Run.trace World.step World.shows (World.boot Disk.empty 8) countDown) order := by
  refine ⟨by decide +kernel, by decide +kernel, ?_⟩
  rw [shows_countDown]
  rintro ⟨order, hlinear⟩
  obtain ⟨taken, htaken, hcall, houtput⟩ := hlinear.completed 3 (asBytes "0\r\n") (by simp)
  have hinputs : ∀ taken ∈ order, taken.call ≠ 3 → taken.input = .set [107] (asBytes "5") false
      ∨ taken.input = .get [[107]] := by
    intro other hother hne
    have hinvoked := hlinear.invoked other hother
    simp only [List.mem_cons, List.not_mem_nil, Linear.Action.invoke.injEq, reduceCtorEq, or_false,
      false_or] at hinvoked
    obtain ⟨-, hinput⟩ | ⟨hcall, -⟩ | ⟨-, hinput⟩ := hinvoked
    · exact .inl hinput
    · exact absurd hcall hne
    · exact .inr hinput
  have hinput : taken.input = .count [107] (-10) := by
    have hinvoked := hlinear.invoked taken htaken
    rw [hcall] at hinvoked
    simpa using hinvoked
  obtain ⟨front, back, rfl⟩ := List.append_of_mem htaken
  have hsets : ∀ other ∈ front, other.input = .set [107] (asBytes "5") false
      ∨ other.input = .get [[107]] := by
    intro other hother
    refine hinputs other (List.mem_append_left _ hother) fun hsame => ?_
    have hnodup := hlinear.nodup
    rw [List.map_append, List.nodup_append] at hnodup
    exact hnodup.2.2 _ (List.mem_map_of_mem hother) _ (List.mem_map_of_mem List.mem_cons_self)
      (hsame.trans hcall.symm)
  have hempty : Map.of (startEngine Disk.empty 8).state [107] = none := by decide +kernel
  have hfront := final_of_set hempty hsets
  have hlegal := (legal_append.mp hlinear.legal).2.1
  rw [houtput, hinput, Memcache.respond] at hlegal
  obtain hnone | hfive := hfront
  · rw [hnone] at hlegal
    have hbytes : asBytes "0\r\n" = asBytes "NOT_FOUND\r\n" := hlegal
    exact absurd hbytes (by decide)
  · rw [hfive] at hlegal
    have hbytes : asBytes "0\r\n"
        = asBytes (toString (Memcache.nextCount (asBytes "5") (-10))) ++ asBytes "\r\n" := hlegal
    exact absurd hbytes (by decide +kernel)

end OneBarrier
