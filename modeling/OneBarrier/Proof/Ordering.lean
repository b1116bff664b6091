import OneBarrier.Proof.Threads

/-!
# The order of calls

The executor takes calls off the queue one at a time, so the order in which records are written is
an order the calls can be explained by. A call takes its place when its record is complete; it was
made before that and returns after it. A call that never returns has a place in the order exactly
if its record was written.
-/

namespace OneBarrier

open Wire Durable Linear

namespace World

variable {frontend : Frontend} {world : World frontend} {mayFail : Op → Prop}

/-- The trace, the order of the records and the calls under way fit together. -/
structure Orders (world : World frontend) : Prop where
  linear : Linearizes KvStore.apply ⟨∅⟩ world.trace world.taken
  inputs : world.taken.map Taken.input = world.history.appended.map Prod.snd
  taken : ∀ taken ∈ world.taken, taken.call < world.calls
  queued : ∀ job ∈ world.queue, job.call < world.calls ∧ job.call ∉ world.taken.map Taken.call
    ∧ (world.threads job.handle).call = job.call
  invoked : ∀ job ∈ world.queue, ∀ op, job.req = .apply op →
    Action.invoke job.call op ∈ world.trace
  distinct : (world.queue.map Job.call).Nodup
  answered : ∀ handle op next out, (world.threads handle).phase = .applying op next (some out) →
    ∃ taken ∈ world.taken, taken.call = (world.threads handle).call ∧ taken.output = out

theorem Orders.congr {next : World frontend} (horders : world.Orders)
    (happended : next.history.appended = world.history.appended)
    (hqueue : next.queue = world.queue) (hthreads : next.threads = world.threads)
    (hcalls : next.calls = world.calls) (htrace : next.trace = world.trace)
    (htaken : next.taken = world.taken) : next.Orders := by
  obtain ⟨hlinear, hinputs, hbelow, hqueued, hinvoked, hdistinct, hanswered⟩ := horders
  rw [← htrace, ← htaken] at hlinear
  rw [← happended, ← htaken] at hinputs
  rw [← hcalls, ← htaken] at hbelow
  rw [← hqueue, ← hcalls, ← htaken, ← hthreads] at hqueued
  rw [← hqueue, ← htrace] at hinvoked
  rw [← hqueue] at hdistinct
  rw [← hthreads, ← htaken] at hanswered
  exact ⟨hlinear, hinputs, hbelow, hqueued, hinvoked, hdistinct, hanswered⟩

/-- A thread that no job is for may change, as long as it has no answer at hand afterwards. -/
theorem Orders.set (horders : world.Orders) {handle : Nat} {thread : Thread frontend}
    (hother : ∀ job ∈ world.queue, job.handle ≠ handle)
    (hphase : ∀ op next out, thread.phase ≠ .applying op next (some out)) :
    (world.set handle thread).Orders where
  linear := horders.linear
  inputs := horders.inputs
  taken := horders.taken
  queued := by
    intro job hjob
    simp only [World.set, Function.update_of_ne (hother job hjob)]
    exact horders.queued job hjob
  invoked := horders.invoked
  distinct := horders.distinct
  answered := by
    intro other op next out hanswer
    simp only [World.set] at hanswer ⊢
    by_cases hsame : other = handle
    · rw [hsame, Function.update_self] at hanswer
      exact absurd hanswer (hphase op next out)
    · rw [Function.update_of_ne hsame] at hanswer ⊢
      exact horders.answered other op next out hanswer

/-- A call joins the queue, under a number of its own. -/
theorem Orders.call (horders : world.Orders) {handle : Nat} {thread : Thread frontend} {req : Req}
    {trace : List (Action Op Output)} (hother : ∀ job ∈ world.queue, job.handle ≠ handle)
    (hphase : ∀ op next out, thread.phase ≠ .applying op next (some out))
    (hcall : thread.call = world.calls)
    (htrace : trace = match req with
      | .apply op => world.trace ++ [.invoke world.calls op]
      | .len => world.trace) :
    Orders { world.set handle thread with
      queue := world.queue ++ [{ handle, call := world.calls, req }]
      calls := world.calls + 1, trace } := by
  have hset := horders.set hother hphase
  have hnew : world.calls ∉ world.taken.map Taken.call := by
    intro hmem
    obtain ⟨taken, htaken, hcalls⟩ := List.mem_map.mp hmem
    exact absurd (horders.taken taken htaken) (by omega)
  have hsubset : ∀ action ∈ world.trace, action ∈ trace := by
    intro action haction
    rw [htrace]
    cases req with
    | apply op => exact List.mem_append_left _ haction
    | len => exact haction
  refine ⟨?_, hset.inputs, ?_, ?_, ?_, ?_, hset.answered⟩
  · cases req with
    | apply op =>
        rw [htrace]
        exact horders.linear.invoke op hnew
    | len =>
        rw [htrace]
        exact horders.linear
  · exact fun taken htaken => Nat.lt_succ_of_lt (horders.taken taken htaken)
  · intro job hjob
    rcases List.mem_append.mp hjob with hold | hlast
    · obtain ⟨hbelow, hfields⟩ := hset.queued job hold
      exact ⟨Nat.lt_succ_of_lt hbelow, hfields⟩
    · rw [List.mem_singleton.mp hlast]
      refine ⟨Nat.lt_succ_self _, hnew, ?_⟩
      simp only [World.set, Function.update_self, hcall]
  · intro job hjob op hreq
    rcases List.mem_append.mp hjob with hold | hlast
    · exact hsubset _ (horders.invoked job hold op hreq)
    · rw [List.mem_singleton.mp hlast] at hreq ⊢
      simp only at hreq
      subst hreq
      rw [htrace]
      exact List.mem_append_right _ (List.mem_singleton_self _)
  · rw [List.map_append]
    refine List.nodup_append.mpr ⟨horders.distinct, by simp, ?_⟩
    intro call hcall last hlast hsame
    obtain ⟨job, hjob, rfl⟩ := List.mem_map.mp hcall
    have hbelow := (horders.queued job hjob).1
    obtain rfl : last = world.calls := by simpa using hlast
    omega

/-! ### One delivery -/

section Deliver

variable {engine : Engine KvStore} {faults : Faults} {ts : UInt64} {job : Job} {op : Op}

theorem taken_deliver (hfresh : (dedup KvStore).fresh engine.toCore (ts, op)) :
    (world.deliver engine faults ts job op).taken
      = if engine.logs faults ts op then world.taken ++ [{
          call := job.call, input := op, output := (dedup KvStore).output engine.toCore (ts, op) }]
        else world.taken := by
  have hdeliver : (world.deliver engine faults ts job op).taken
      = (world.record engine faults ts job op).taken := by
    simp only [deliver]
    split <;> rfl
  rw [hdeliver, record, applyDedup_of_fresh hfresh]
  by_cases hlogs : engine.logs faults ts op = true
  · simp only [if_pos hlogs]
  · simp only [if_neg hlogs]

theorem appended_deliver (hengine : world.history.engine = some engine) :
    (world.deliver engine faults ts job op).history.appended
      = if engine.logs faults ts op then world.history.appended ++ [(ts, op)]
        else world.history.appended := by
  have hdeliver : (world.deliver engine faults ts job op).history.appended
      = (world.history.step (.deliver faults ts op)).appended := by
    simp only [deliver]
    split <;> rfl
  rw [hdeliver]
  simp only [History.step, hengine, History.deliver]
  split <;> rfl

theorem disk_deliver (hengine : world.history.engine = some engine) :
    (world.deliver engine faults ts job op).history.disk
      = (engine.deliver faults world.history.disk ts op).2.2 := by
  have hdeliver : (world.deliver engine faults ts job op).history.disk
      = (world.history.step (.deliver faults ts op)).disk := by
    simp only [deliver]
    split <;> rfl
  rw [hdeliver]
  simp only [History.step, hengine, History.deliver]
  generalize engine.deliver faults world.history.disk ts op = result
  obtain ⟨outcome, after, disk⟩ := result
  cases outcome <;> rfl

/-- Only a delivery that returns leaves a live engine. -/
theorem engine_deliver (hengine : world.history.engine = some engine) {after : Engine KvStore}
    (hafter : after ∈ (world.deliver engine faults ts job op).history.engine) :
    after = (engine.deliver faults world.history.disk ts op).2.1
      ∧ ∃ out, (engine.deliver faults world.history.disk ts op).1 = .ok out := by
  have hstep : (world.history.step (.deliver faults ts op))
      = world.history.deliver engine faults ts op := by simp only [History.step, hengine]
  simp only [deliver, hstep] at hafter
  split at hafter
  · rename_i out hok
    change after ∈ (world.history.deliver engine faults ts op).engine at hafter
    rw [History.deliver] at hafter
    generalize engine.deliver faults world.history.disk ts op = result at hok hafter ⊢
    obtain ⟨outcome, next, disk⟩ := result
    obtain rfl : outcome = .ok out := hok
    exact ⟨(Option.some.inj hafter).symm, out, rfl⟩
  · cases hafter
  · cases hafter

variable (world engine faults ts job op) in
theorem nextId_deliver : (world.deliver engine faults ts job op).nextId = world.nextId := by
  have hrecord : (world.record engine faults ts job op).nextId = world.nextId := by
    rw [record]
    split
    · split <;> rfl
    · rfl
  simp only [deliver]
  split <;> exact hrecord

variable (world engine faults ts job op) in
theorem replies_deliver : (world.deliver engine faults ts job op).replies = world.replies := by
  have hrecord := @replies_record _ world engine faults ts job op
  simp only [deliver]
  split <;> exact hrecord

variable (world engine faults ts job op) in
/-- A delivery neither makes a call nor returns one, and takes nothing into the queue. -/
theorem deliver_frame :
    (world.deliver engine faults ts job op).trace = world.trace
      ∧ (world.deliver engine faults ts job op).calls = world.calls
      ∧ (world.deliver engine faults ts job op).queue.Sublist world.queue := by
  have hrecord : (world.record engine faults ts job op).trace = world.trace
      ∧ (world.record engine faults ts job op).calls = world.calls := by
    rw [record]
    split
    · split <;> exact ⟨rfl, rfl⟩
    · exact ⟨rfl, rfl⟩
  have hqueue := (record_frame world engine faults ts job op).1
  simp only [deliver]
  split
  · exact ⟨hrecord.1, hrecord.2, hqueue ▸ List.Sublist.refl _⟩
  · exact ⟨hrecord.1, hrecord.2, List.nil_sublist _⟩
  · exact ⟨hrecord.1, hrecord.2, List.nil_sublist _⟩

variable (world engine faults ts job op) in
/-- What a delivery does to a thread: the one whose op it is gets the answer, or the executor is
gone, or the process is. -/
theorem threads_deliver (other : Nat) : ∃ phase logged,
    (world.deliver engine faults ts job op).threads other
        = { world.threads other with phase, logged }
      ∧ (phase = .closed
        ∨ phase = (world.threads other).phase ∧ (other = job.handle →
          (world.deliver engine faults ts job op).history.engine = none)
        ∨ other = job.handle ∧ ∃ out, phase = (world.threads other).phase.answer out
          ∧ (engine.deliver faults world.history.disk ts op).1 = .ok out) := by
  have hthreads := threads_record world engine faults ts op job
  generalize (if engine.logs faults ts op then (world.threads job.handle).logged ++ [op]
    else (world.threads job.handle).logged) = logged at hthreads
  simp only [deliver]
  by_cases hsame : other = job.handle
  · subst hsame
    split
    · rename_i out hok
      refine ⟨_, logged, ?_, .inr (.inr ⟨rfl, out, rfl, hok⟩)⟩
      simp only [World.set, hthreads, Function.update_self]
    · refine ⟨_, logged, ?_, .inr (.inl ⟨rfl, fun _ => rfl⟩)⟩
      simp only [executorGone, hthreads, Function.update_self]
    · refine ⟨_, logged, ?_, .inl rfl⟩
      simp only [crash, executorGone, hthreads, Function.update_self]
  · split
    · refine ⟨_, (world.threads other).logged, ?_, .inr (.inl ⟨rfl, fun heq => absurd heq hsame⟩)⟩
      simp only [World.set, hthreads, Function.update_of_ne hsame]
    · refine ⟨_, (world.threads other).logged, ?_, .inr (.inl ⟨rfl, fun _ => rfl⟩)⟩
      simp only [executorGone, hthreads, Function.update_of_ne hsame]
    · refine ⟨_, (world.threads other).logged, ?_, .inl rfl⟩
      simp only [crash, executorGone, hthreads, Function.update_of_ne hsame]

theorem Phase.answer_eq_applying {phase : Phase frontend} {out answer : Output} {answered : Op}
    {next : Option Output → Conv (Turn frontend.Conn)}
    (hanswer : phase.answer out = .applying answered next (some answer)) : answer = out := by
  cases phase with
  | applying op next stale =>
      obtain ⟨-, -, hout⟩ := Phase.applying.inj hanswer
      exact (Option.some.inj hout).symm
  | closed => cases hanswer
  | idle => cases hanswer
  | serving conv => cases hanswer
  | counting next answer => cases hanswer

theorem final_taken (horders : world.Orders)
    (hstate : (serial KvStore world.history.appended).state = world.history.appended.foldl
      (fun state record => (StateMachine.apply state record.2).1) StateMachine.default) :
    final KvStore.apply ⟨∅⟩ world.taken = (serial KvStore world.history.appended).state := by
  have hinputs : (world.taken.map Taken.input).foldl (fun state op => (KvStore.apply state op).1) ⟨∅⟩
      = (world.history.appended.map Prod.snd).foldl (fun state op => (KvStore.apply state op).1)
        ⟨∅⟩ := by rw [horders.inputs]
  rw [List.foldl_map, List.foldl_map] at hinputs
  rw [hstate]
  exact hinputs

/-- The executor takes the head of the queue, a new op. -/
theorem Orders.deliver (horders : world.Orders) (hcoherent : world.history.Coherent)
    (hstate : (serial KvStore world.history.appended).state = world.history.appended.foldl
      (fun state record => (StateMachine.apply state record.2).1) StateMachine.default)
    (hengine : world.history.engine = some engine) {queue : List Job}
    (hhead : world.queue = job :: queue) (hreq : job.req = .apply op)
    (hfresh : (dedup KvStore).fresh engine.toCore (ts, op)) (clock : UInt64) :
    (World.deliver { world with clock, queue } engine faults ts job op).Orders := by
  obtain ⟨hcall, hnew, hthread⟩ := horders.queued job (by simp [hhead])
  have hinvoked := horders.invoked job (by simp [hhead]) op hreq
  have hdistinct := horders.distinct
  rw [hhead, List.map_cons, List.nodup_cons] at hdistinct
  have htail : ∀ other ∈ queue, other ∈ world.queue := by
    intro other hother
    rw [hhead]
    exact List.mem_cons_of_mem _ hother
  have hlive := hcoherent.live engine hengine
  have hfinal := final_taken horders hstate
  have hlinear : Linearizes KvStore.apply ⟨∅⟩ world.trace (world.taken ++ [{
      call := job.call, input := op, output := (dedup KvStore).output engine.toCore (ts, op) }]) := by
    refine horders.linear.take hinvoked hnew ?_
    rw [hfinal, ← hlive]
    rfl
  obtain ⟨htrace, hcalls, hqueue⟩ :=
    deliver_frame { world with clock, queue } engine faults ts job op
  have htaken := @taken_deliver _ { world with clock, queue } engine faults ts job op hfresh
  have happended := @appended_deliver _ { world with clock, queue } engine faults ts job op hengine
  have hall := threads_deliver { world with clock, queue } engine faults ts job op
  generalize World.deliver { world with clock, queue } engine faults ts job op = after
    at htrace hcalls hqueue htaken happended hall ⊢
  dsimp only at htrace hcalls hqueue htaken happended hall
  have hthreads : ∀ other, (after.threads other).call = (world.threads other).call := by
    intro other
    obtain ⟨phase, logged, hother, -⟩ := hall other
    rw [hother]
  have hanswered : ∀ other answered next out,
      (after.threads other).phase = .applying answered next (some out) →
        (world.threads other).phase = .applying answered next (some out)
          ∨ other = job.handle ∧ (engine.deliver faults world.history.disk ts op).1 = .ok out := by
    intro other answered next out hanswer
    obtain ⟨phase, logged, hother, hcases⟩ := hall other
    rw [hother] at hanswer
    obtain rfl : phase = _ := hanswer
    rcases hcases with hclosed | ⟨hphase, -⟩ | ⟨hsame, result, hphase, hok⟩
    · cases hclosed
    · exact .inl hphase.symm
    · rw [Phase.answer_eq_applying hphase.symm]
      exact .inr ⟨hsame, hok⟩
  have hfresh' : ¬ op.seq ≤ engine.highWater op.client := UInt64.not_le.mpr hfresh
  by_cases hlogs : engine.logs faults ts op = true
  · rw [if_pos hlogs] at htaken happended
    refine ⟨by rwa [htrace, htaken], ?_, ?_, ?_, ?_, hdistinct.2.sublist (hqueue.map _), ?_⟩
    · rw [htaken, happended, List.map_append, List.map_append, horders.inputs]
      rfl
    · rw [htaken, hcalls]
      intro taken hmem
      rcases List.mem_append.mp hmem with hold | hlast
      · exact horders.taken taken hold
      · rw [List.mem_singleton.mp hlast]
        exact hcall
    · rw [htaken, hcalls]
      intro other hother
      have hmem := hqueue.subset hother
      obtain ⟨hbelow, hunused, hnumber⟩ := horders.queued other (htail other hmem)
      refine ⟨hbelow, ?_, (hthreads other.handle).trans hnumber⟩
      rw [List.map_append, List.mem_append, not_or]
      refine ⟨hunused, ?_⟩
      rw [List.map_singleton, List.mem_singleton]
      intro hsame
      have hmapped : other.call ∈ queue.map Job.call := List.mem_map_of_mem hmem
      rw [hsame] at hmapped
      exact hdistinct.1 hmapped
    · rw [htrace]
      exact fun other hother => horders.invoked other (htail other (hqueue.subset hother))
    · rw [htaken]
      intro other answered next out hanswer
      rcases hanswered other answered next out hanswer with hold | ⟨rfl, hok⟩
      · obtain ⟨taken, hmem, hfields⟩ := horders.answered other answered next out hold
        exact ⟨taken, List.mem_append_left _ hmem, by rwa [hthreads]⟩
      · refine ⟨_, List.mem_append_right _ (List.mem_singleton_self _), ?_, ?_⟩
        · rw [hthreads, hthread]
        · exact (output_of_deliver_ok hfresh hok).2.symm
  · rw [if_neg hlogs] at htaken happended
    refine ⟨by rw [htrace, htaken]; exact horders.linear, by rw [htaken, happended, horders.inputs],
      by rw [htaken, hcalls]; exact horders.taken, ?_, ?_, hdistinct.2.sublist (hqueue.map _), ?_⟩
    · rw [htaken, hcalls]
      intro other hother
      obtain ⟨hbelow, hunused, hnumber⟩ := horders.queued other (htail other (hqueue.subset hother))
      exact ⟨hbelow, hunused, (hthreads other.handle).trans hnumber⟩
    · rw [htrace]
      exact fun other hother => horders.invoked other (htail other (hqueue.subset hother))
    · rw [htaken]
      intro other answered next out hanswer
      rcases hanswered other answered next out hanswer with hold | ⟨rfl, hok⟩
      · rw [hthreads]
        exact horders.answered other answered next out hold
      · rcases logs_of_deliver_ok hok with ⟨-, hcovered⟩ | ⟨-, hlogged⟩
        · exact absurd hcovered hfresh'
        · exact absurd hlogged hlogs

end Deliver

/-! ### Every step -/

/-- The op delivered next is new to the engine. -/
def DeliversFresh (world : World frontend) : WorldEvent frontend → Prop
  | .execute _ tick => ∀ engine ∈ world.history.engine, ∀ record ∈ world.pending tick,
      (dedup KvStore).fresh engine.toCore record
  | _ => True

theorem Orders.send (horders : world.Orders) (hwired : world.Wired mayFail) (handle : Nat) :
    (world.send handle).Orders := by
  rw [World.send]
  dsimp only
  split
  · rename_i op next hphase
    have hwaiting : (world.threads handle).phase.isWaiting = false := by rw [hphase]; rfl
    have hother := hwired.other (.inr hwaiting)
    split
    · exact horders.call hother (fun _ _ _ hanswer => by cases hanswer) rfl rfl
    · exact horders.set hother fun _ _ _ hanswer => by cases hanswer
  · rename_i next hphase
    have hwaiting : (world.threads handle).phase.isWaiting = false := by rw [hphase]; rfl
    have hother := hwired.other (.inr hwaiting)
    split
    · exact horders.call hother (fun _ _ _ hanswer => by cases hanswer) rfl rfl
    · exact horders.set hother fun _ _ _ hanswer => by cases hanswer
  · exact horders

theorem Orders.receive (horders : world.Orders) (hwired : world.Wired mayFail) (handle : Nat) :
    (world.receive handle).Orders := by
  rw [World.receive]
  dsimp only
  split
  · rename_i op next out hphase
    have hwaiting : (world.threads handle).phase.isWaiting = false := by rw [hphase]; rfl
    have hother := hwired.other (.inr hwaiting)
    obtain ⟨taken, hmem, hcall, hout⟩ := horders.answered handle op next out hphase
    have hset : (world.set handle ((world.threads handle).resume op next (some out))).Orders :=
      horders.set hother fun _ _ _ hanswer => by cases hanswer
    have hlinear := horders.linear.respond hmem
    rw [hcall, hout] at hlinear
    exact ⟨hlinear, hset.inputs, hset.taken, hset.queued,
      fun job hjob op hreq => List.mem_append_left _ (hset.invoked job hjob op hreq),
      hset.distinct, hset.answered⟩
  · rename_i op next hphase
    split
    · exact horders
    · rename_i hengine
      exact horders.set (hwired.other (.inl (by simpa using hengine)))
        fun _ _ _ hanswer => by cases hanswer
  · rename_i next count hphase
    exact horders.set (hwired.other (.inr (by rw [hphase]; rfl))) fun _ _ _ hanswer => by cases hanswer
  · rename_i next hphase
    split
    · exact horders
    · rename_i hengine
      exact horders.set (hwired.other (.inl (by simpa using hengine)))
        fun _ _ _ hanswer => by cases hanswer
  · exact horders

/-- The queue and the threads are gone; what has happened stays. -/
theorem Orders.forget {next : World frontend} (horders : world.Orders)
    (happended : next.history.appended = world.history.appended) (hqueue : next.queue = [])
    (hclosed : ∀ handle, (next.threads handle).phase = .closed) (hcalls : next.calls = world.calls)
    (htrace : next.trace = world.trace) (htaken : next.taken = world.taken) : next.Orders := by
  refine ⟨by rw [htrace, htaken]; exact horders.linear, by rw [happended, htaken, horders.inputs],
    by rw [htaken, hcalls]; exact horders.taken, ?_, ?_, ?_, ?_⟩
  · rw [hqueue]
    simp
  · rw [hqueue]
    simp
  · rw [hqueue]
    exact List.nodup_nil
  · intro handle op after out hanswer
    rw [hclosed handle] at hanswer
    cases hanswer

theorem Orders.execute (horders : world.Orders) (hwired : world.Wired mayFail)
    (hcoherent : world.history.Coherent)
    (hstate : (serial KvStore world.history.appended).state = world.history.appended.foldl
      (fun state record => (StateMachine.apply state record.2).1) StateMachine.default)
    {faults : Faults} {tick : UInt64} (hfresh : world.DeliversFresh (.execute faults tick)) :
    (world.execute faults tick).Orders := by
  rw [World.execute]
  cases hengine : world.history.engine with
  | none => exact horders
  | some engine =>
      cases hqueue : world.queue with
      | nil => exact horders
      | cons job queue =>
          obtain ⟨handle, call, req⟩ := job
          have hhandles := hwired.handles
          rw [hqueue, List.map_cons, List.nodup_cons] at hhandles
          have hdistinct := horders.distinct
          rw [hqueue, List.map_cons, List.nodup_cons] at hdistinct
          cases req with
          | apply op =>
              have hpending : world.pending tick = some (max (world.clock + 1) tick, op) := by
                simp only [pending, hengine, hqueue]
              exact horders.deliver hcoherent hstate hengine hqueue rfl
                (hfresh engine hengine _ hpending) _
          | len =>
              obtain ⟨next, hphase⟩ := hwired.awaited _ (by rw [hqueue]; exact List.mem_cons_self)
              have htail : ∀ other ∈ queue, other ∈ world.queue := by
                intro other hother
                rw [hqueue]
                exact List.mem_cons_of_mem _ hother
              have hrest : Orders { world with queue } :=
                ⟨horders.linear, horders.inputs, horders.taken,
                  fun other hother => horders.queued other (htail other hother),
                  fun other hother => horders.invoked other (htail other hother),
                  hdistinct.2, horders.answered⟩
              refine hrest.set ?_ ?_
              · intro other hother hsame
                exact hhandles.1 (hsame ▸ List.mem_map_of_mem hother)
              · simp only [hphase, Phase.answerLen]
                exact fun _ _ _ hanswer => by cases hanswer

/-- **The step lemma for the order of calls.** -/
theorem Orders.step (horders : world.Orders) (hwired : world.Wired mayFail)
    (hcoherent : world.history.Coherent)
    (hstate : (serial KvStore world.history.appended).state = world.history.appended.foldl
      (fun state record => (StateMachine.apply state record.2).1) StateMachine.default)
    {event : WorldEvent frontend} (hfresh : world.DeliversFresh event) :
    (world.step event).Orders := by
  cases event with
  | accept handle client =>
      rw [World.step]
      split
      · rename_i hphase
        have hset : (world.set handle { client, conn := frontend.init, phase := .idle }).Orders :=
          horders.set (hwired.other (.inr (by rw [hphase]; rfl)))
            fun _ _ _ hanswer => by cases hanswer
        exact hset.congr rfl rfl rfl rfl rfl rfl
      · exact horders
  | disconnect handle =>
      rw [World.step]
      split
      · rename_i hphase
        exact horders.set (hwired.other (.inr (by rw [hphase]; rfl)))
          fun _ _ _ hanswer => by cases hanswer
      · exact horders
  | request handle request =>
      rw [World.step]
      split
      · rename_i hphase
        exact horders.set (hwired.other (.inr (by rw [hphase]; rfl)))
          fun _ _ _ hanswer => by cases hanswer
      · exact horders
  | send handle => exact horders.send hwired handle
  | execute faults tick => exact horders.execute hwired hcoherent hstate hfresh
  | receive handle => exact horders.receive hwired handle
  | reply handle =>
      rw [World.step, World.reply]
      split
      · rename_i turn hphase
        refine (horders.set (hwired.other (.inr (by rw [hphase]; rfl))) ?_).congr
          rfl rfl rfl rfl rfl rfl
        intro op next out hanswer
        cases hclose : turn.close <;> simp [hclose] at hanswer
      · exact horders
  | crash => exact horders.forget rfl rfl (fun _ => rfl) rfl rfl rfl
  | restart interval =>
      rw [World.step]
      split
      · exact horders
      · rename_i hstopped
        have hclosed := (hwired.stopped (by simpa using hstopped)).2
        exact horders.forget rfl rfl hclosed rfl rfl rfl

variable (frontend) in
theorem orders_start (interval : UInt64) : (start interval : World frontend).Orders := by
  refine ⟨linearizes_nil, rfl, by simp [start], by simp [start], by simp [start], List.nodup_nil, ?_⟩
  intro handle op next out hanswer
  cases hanswer

end World

end OneBarrier
