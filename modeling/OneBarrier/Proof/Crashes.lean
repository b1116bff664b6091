import OneBarrier.Proof.Process

/-!
# Executions through crashes

A server that dies between durable steps only, and comes back on its directory, goes on where the
executor stopped: the executions of all its processes, one after the other, account for the store and
for every reply. No answer is given twice, and none is missing from a reply.
-/

namespace OneBarrier

open Wire Durable

variable {frontend : Frontend}

/-- The answers a request had when an op of it was executed come from earlier executions. -/
def Grounded (initial : KvStore) (executions : List (Execution frontend)) : Prop :=
  ∀ place execution, executions[place]? = some execution →
    ∃ earlier, earlier ≤ place
      ∧ Explained initial executions execution.serving earlier execution.answers

/-- The dedup keys of the ops that have been answered. -/
def answeredKeys (answers : List (Op × Option Output)) : List (UInt32 × UInt64) :=
  answers.filterMap fun answer => answer.2.map fun _ => (answer.1.client, answer.1.seq)

theorem answeredKeys_append (answers more : List (Op × Option Output)) :
    answeredKeys (answers ++ more) = answeredKeys answers ++ answeredKeys more :=
  List.filterMap_append

/-- The keys a thread has had answers for in its present request. -/
def Thread.keys (thread : Thread frontend) : List (UInt32 × UInt64) :=
  match thread.phase.conv with
  | none => []
  | some _ => answeredKeys thread.given

theorem Thread.keys_of_conv {thread : Thread frontend} (hconv : thread.phase.conv ≠ none) :
    thread.keys = answeredKeys thread.given := by
  obtain ⟨conv, hconv⟩ := Option.ne_none_iff_exists'.mp hconv
  rw [Thread.keys, hconv]

theorem Thread.keys_of_conv_eq_none {thread : Thread frontend} (hconv : thread.phase.conv = none) :
    thread.keys = [] := by
  rw [Thread.keys, hconv]

section Explained

variable {initial : KvStore} {executions : List (Execution frontend)}

/-- Every answer is that of an execution for the request. -/
theorem Explained.mem_keys {serving : Serving frontend} {place : Nat}
    {answers : List (Op × Option Output)}
    (hexplained : Explained initial executions serving place answers) {key : UInt32 × UInt64}
    (hkey : key ∈ answeredKeys answers) : key ∈ executions.map Execution.key := by
  induction hexplained with
  | start => cases hkey
  | answered later _ _ hexecuted _ ih =>
      rw [answeredKeys_append, List.mem_append] at hkey
      rcases hkey with hold | hlast
      · exact ih hold
      · obtain rfl := List.mem_singleton.mp hlast
        exact List.mem_map.mpr ⟨_, List.mem_of_getElem? hexecuted, rfl⟩
  | unanswered op _ ih =>
      rw [answeredKeys_append, List.mem_append] at hkey
      rcases hkey with hold | hlast
      · exact ih hold
      · cases hlast

theorem Grounded.append (hgrounded : Grounded initial executions) {execution : Execution frontend}
    (hexplains : Explains initial executions execution.serving execution.answers) :
    Grounded initial (executions ++ [execution]) := by
  intro place other hother
  by_cases hplace : place < executions.length
  · rw [List.getElem?_append_left hplace] at hother
    obtain ⟨earlier, hearlier, hexplained⟩ := hgrounded place other hother
    exact ⟨earlier, hearlier, hexplained.append _⟩
  · obtain ⟨hlast, -⟩ := List.getElem?_eq_some_iff.mp hother
    rw [List.length_append, List.length_singleton] at hlast
    obtain rfl : place = executions.length := by omega
    rw [List.getElem?_append_right (Nat.le_refl _), Nat.sub_self] at hother
    obtain rfl : execution = other := Option.some.inj hother
    obtain ⟨earlier, hearlier, hexplained⟩ := hexplains
    exact ⟨earlier, hearlier, hexplained.append _⟩

end Explained

namespace World

variable {world : World frontend} {initial : KvStore} {executions : List (Execution frontend)}

theorem Executes.mem_keys (hexecutes : world.Executes initial executions) {handle : Nat}
    {key : UInt32 × UInt64} (hkey : key ∈ (world.threads handle).keys) :
    key ∈ executions.map Execution.key := by
  by_cases hconv : (world.threads handle).phase.conv = none
  · rw [Thread.keys_of_conv_eq_none hconv] at hkey
    cases hkey
  · rw [Thread.keys_of_conv hconv] at hkey
    obtain ⟨place, -, hexplained⟩ := hexecutes.threads handle hconv
    exact hexplained.mem_keys hkey

end World

theorem Grounded.step (hgrounded : Grounded initial executions)
    {world : World frontend} (hexecutes : world.Executes initial executions) {mayFail : Op → Prop}
    (hwired : world.Wired mayFail) (event : WorldEvent frontend) :
    Grounded initial (executions ++ world.executes event) := by
  rcases hnew : world.executes event with _ | ⟨execution, more⟩
  · rw [List.append_nil]
    exact hgrounded
  · obtain ⟨engine, faults, tick, job, queue, op, -, -, hqueue, hreq, -, hexecution, hone⟩ :=
      @World.executes_cases _ world event execution (by rw [hnew]; exact List.mem_cons_self)
    rw [hnew] at hone
    rw [hone]
    refine hgrounded.append ?_
    have hawaits := hwired.awaited job (by simp [hqueue])
    rw [hreq] at hawaits
    obtain ⟨next, hphase⟩ := hawaits
    have hthread := hexecutes.threads job.handle (by rw [hphase]; rintro ⟨⟩)
    rw [Thread.given, hphase] at hthread
    rw [hexecution]
    exact hthread

/-! ### No answer is given twice -/

namespace World

variable {world : World frontend} {initial : KvStore} {executions : List (Execution frontend)}

theorem keys_update {handle other : Nat} {thread : Thread frontend} {key : UInt32 × UInt64}
    (hsubset : thread.keys ⊆ (world.threads handle).keys)
    (hkey : key ∈ (Function.update world.threads handle thread other).keys) :
    key ∈ (world.threads other).keys := by
  by_cases hother : other = handle
  · rw [hother, Function.update_self] at hkey
    rw [hother]
    exact hsubset hkey
  · rwa [Function.update_of_ne hother] at hkey

theorem keys_send {handle other : Nat} {key : UInt32 × UInt64}
    (hkey : key ∈ ((world.send handle).threads other).keys) :
    key ∈ (world.threads other).keys := by
  rw [World.send] at hkey
  dsimp only at hkey
  split at hkey
  · rename_i op next hphase
    split at hkey
    · refine keys_update ?_ hkey
      simp [Thread.keys, Thread.given, Phase.conv, hphase]
    · refine keys_update ?_ hkey
      simp [Thread.keys, Thread.given, Phase.conv, hphase, Thread.resume, answeredKeys]
  · rename_i next hphase
    split at hkey
    · refine keys_update ?_ hkey
      simp [Thread.keys, Thread.given, Phase.conv, hphase]
    · refine keys_update ?_ hkey
      simp [Thread.keys, Thread.given, Phase.conv, hphase]
  · exact hkey

theorem keys_receive {handle other : Nat} {key : UInt32 × UInt64}
    (hkey : key ∈ ((world.receive handle).threads other).keys) :
    key ∈ (world.threads other).keys := by
  rw [World.receive] at hkey
  dsimp only at hkey
  split at hkey
  · rename_i op next out hphase
    refine keys_update ?_ hkey
    simp [Thread.keys, Thread.given, Phase.conv, hphase, Thread.resume]
  · rename_i op next hphase
    split at hkey
    · exact hkey
    · refine keys_update ?_ hkey
      simp [Thread.keys, Thread.given, Phase.conv, hphase, Thread.resume, answeredKeys]
  · rename_i next count hphase
    refine keys_update ?_ hkey
    simp [Thread.keys, Thread.given, Phase.conv, hphase]
  · rename_i next hphase
    split at hkey
    · exact hkey
    · refine keys_update ?_ hkey
      simp [Thread.keys, Thread.given, Phase.conv, hphase]
  · exact hkey

theorem keys_reply {handle : Nat} {turn : Turn frontend.Conn}
    (hphase : (world.threads handle).phase = .serving (.ret turn)) :
    ((world.reply handle).threads handle).keys = [] := by
  refine Thread.keys_of_conv_eq_none ?_
  rw [World.reply, hphase]
  dsimp only [World.set]
  rw [Function.update_self]
  dsimp only
  split <;> rfl

/-- The only key a step adds is that of its execution, to the thread the execution is for. -/
theorem keys_step {mayFail : Op → Prop} (hwired : world.Wired mayFail)
    (hfresh : ∀ engine ∈ world.history.engine, ∀ job ∈ world.queue, ∀ op ∈ job.req.op,
      engine.highWater op.client < op.seq)
    {event : WorldEvent frontend} {handle : Nat} {key : UInt32 × UInt64}
    (hkey : key ∈ ((world.step event).threads handle).keys) :
    key ∈ (world.threads handle).keys
      ∨ ∃ execution ∈ world.executes event, key = execution.key
        ∧ ∃ job ∈ world.queue.head?, job.handle = handle := by
  cases event with
  | accept other client =>
      rw [World.step] at hkey
      split at hkey
      · exact .inl (keys_update (List.nil_subset _) hkey)
      · exact .inl hkey
  | disconnect other =>
      rw [World.step] at hkey
      split at hkey
      · exact .inl (keys_update (List.nil_subset _) hkey)
      · exact .inl hkey
  | request other request =>
      rw [World.step] at hkey
      split at hkey
      · exact .inl (keys_update (List.nil_subset _) hkey)
      · exact .inl hkey
  | send other => exact .inl (keys_send hkey)
  | receive other => exact .inl (keys_receive hkey)
  | reply other =>
      left
      rw [World.step, World.reply] at hkey
      dsimp only at hkey
      split at hkey
      · refine keys_update ?_ hkey
        rw [Thread.keys_of_conv_eq_none]
        · exact List.nil_subset _
        · dsimp only
          split <;> rfl
      · exact hkey
  | crash => cases hkey
  | restart interval =>
      rw [World.step] at hkey
      split at hkey <;> exact .inl hkey
  | execute faults tick =>
      rw [World.step, World.execute] at hkey
      rw [World.executes]
      cases hengine : world.history.engine with
      | none =>
          rw [hengine] at hkey
          exact .inl hkey
      | some engine =>
          cases hqueue : world.queue with
          | nil =>
              rw [hengine, hqueue] at hkey
              exact .inl hkey
          | cons job queue =>
              rw [hengine, hqueue] at hkey
              have hjob : job ∈ world.queue := by simp [hqueue]
              have hawaits := hwired.awaited job hjob
              obtain ⟨waiting, call, req⟩ := job
              cases req with
              | len =>
                  obtain ⟨next, hphase⟩ := hawaits
                  refine .inl (keys_update ?_ hkey)
                  simp [Thread.keys, Thread.given, Phase.conv, hphase, Phase.answerLen]
              | apply op =>
                  obtain ⟨next, hphase⟩ := hawaits
                  dsimp only at hkey hphase
                  obtain ⟨phase, logged, hother, hcases⟩ := threads_deliver
                    { world with clock := world.clock + 1, queue } engine faults
                    (max (world.clock + 1) tick) ⟨waiting, call, .apply op⟩ op handle
                  rw [hother] at hkey
                  dsimp only at hkey hcases
                  rcases hcases with rfl | ⟨rfl, -⟩ | ⟨rfl, out, rfl, hok⟩
                  · cases hkey
                  · exact .inl hkey
                  · obtain ⟨hfault, -⟩ := output_of_deliver_ok (hfresh engine hengine _ hjob op rfl) hok
                    have hlogs : engine.logs faults (max (world.clock + 1) tick) op = true := by
                      simp [Engine.logs, applyDedup_of_fresh (hfresh engine hengine _ hjob op rfl),
                        AppendFault.completes, hfault]
                    rw [hphase] at hkey
                    have hgiven : key ∈ answeredKeys ((world.threads handle).answers
                        ++ [(op, some out)]) := hkey
                    rw [answeredKeys_append, List.mem_append] at hgiven
                    rcases hgiven with hold | hnew
                    · left
                      rw [Thread.keys_of_conv (by rw [hphase]; rintro ⟨⟩), Thread.given, hphase]
                      exact hold
                    · right
                      dsimp only
                      rw [if_pos hlogs]
                      exact ⟨_, List.mem_singleton_self _, List.mem_singleton.mp hnew, _, rfl, rfl⟩

/-- No two requests have an answer from the same execution. -/
structure Separates (world : World frontend) : Prop where
  replies : world.replies.Pairwise fun first second =>
    (answeredKeys first.answers).Disjoint (answeredKeys second.answers)
  threads : ∀ reply ∈ world.replies, ∀ handle,
    (answeredKeys reply.answers).Disjoint (world.threads handle).keys
  pairs : ∀ first second, first ≠ second →
    (world.threads first).keys.Disjoint (world.threads second).keys

theorem Separates.step (hseparates : world.Separates)
    (hexecutes : world.Executes initial executions) {mayFail : Op → Prop}
    (hwired : world.Wired mayFail)
    (hfresh : ∀ engine ∈ world.history.engine, ∀ job ∈ world.queue, ∀ op ∈ job.req.op,
      engine.highWater op.client < op.seq)
    {event : WorldEvent frontend}
    (hkeys : ((executions ++ world.executes event).map Execution.key).Nodup) :
    (world.step event).Separates := by
  have hnew : ∀ execution ∈ world.executes event, execution.key ∉ executions.map Execution.key := by
    intro execution hexecution hmem
    rw [List.map_append, List.nodup_append] at hkeys
    exact hkeys.2.2 _ hmem _ (List.mem_map_of_mem hexecution) rfl
  have hreply : ∀ reply ∈ world.replies, ∀ key ∈ answeredKeys reply.answers,
      key ∈ executions.map Execution.key := by
    intro reply hreply key hkey
    obtain ⟨place, -, hexplained⟩ := hexecutes.replies reply hreply
    exact hexplained.mem_keys hkey
  -- what a thread has afterwards is new to every reply
  have hold : ∀ reply ∈ world.replies, ∀ handle,
      (answeredKeys reply.answers).Disjoint ((world.step event).threads handle).keys := by
    intro reply hmem handle key hkey hthread
    rcases keys_step hwired hfresh hthread with hbefore | ⟨execution, hexecution, rfl, -⟩
    · exact hseparates.threads reply hmem handle hkey hbefore
    · exact hnew execution hexecution (hreply reply hmem _ hkey)
  have hpairs : ∀ first second, first ≠ second →
      ((world.step event).threads first).keys.Disjoint ((world.step event).threads second).keys := by
    intro first second hne key hfirst hsecond
    rcases keys_step hwired hfresh hfirst with hfirst | ⟨execution, hexecution, rfl, job, hjob, rfl⟩
    · rcases keys_step hwired hfresh hsecond with hsecond | ⟨execution, hexecution, rfl, -⟩
      · exact hseparates.pairs first second hne hfirst hsecond
      · exact hnew execution hexecution (hexecutes.mem_keys hfirst)
    · rcases keys_step hwired hfresh hsecond with hsecond | ⟨other, -, -, head, hhead, rfl⟩
      · exact hnew execution hexecution (hexecutes.mem_keys hsecond)
      · exact hne (congrArg Job.handle (Option.mem_unique hjob hhead))
  rcases replies_step event with hsame | ⟨handle, turn, rfl, hphase, hone⟩
  · refine ⟨?_, ?_, hpairs⟩
    · rw [hsame]
      exact hseparates.replies
    · rw [hsame]
      exact hold
  · have hgiven : (world.threads handle).keys = answeredKeys (world.threads handle).answers := by
      rw [Thread.keys_of_conv (by rw [hphase]; rintro ⟨⟩), Thread.given, hphase]
    refine ⟨?_, ?_, hpairs⟩
    · rw [hone, List.pairwise_append]
      refine ⟨hseparates.replies, List.pairwise_singleton _ _, fun reply hmem last hlast => ?_⟩
      obtain rfl := List.mem_singleton.mp hlast
      have hdisjoint := hseparates.threads reply hmem handle
      rwa [hgiven] at hdisjoint
    · rw [hone]
      intro reply hmem other
      rcases List.mem_append.mp hmem with hbefore | hlast
      · exact hold reply hbefore other
      · obtain rfl := List.mem_singleton.mp hlast
        intro key hkey hthread
        rw [← hgiven] at hkey
        by_cases hother : other = handle
        · rw [hother, World.step, keys_reply hphase] at hthread
          cases hthread
        · rcases keys_step hwired hfresh hthread with hbefore | ⟨execution, hexecution, -⟩
          · exact hseparates.pairs handle other (Ne.symm hother) hkey hbefore
          · cases hexecution

end World

/-! ### Whole runs -/

namespace World

variable {world : World frontend}

/-- The executor is gone only together with its process, and every call has been answered. -/
structure Attended (world : World frontend) : Prop where
  executor : world.history.engine = none → world.running = false
  threads : ∀ handle, ∀ answer ∈ (world.threads handle).answers, answer.2 ≠ none
  replies : ∀ reply ∈ world.replies, ∀ answer ∈ reply.answers, answer.2 ≠ none

theorem Attended.update (hattended : world.Attended) {next : World frontend} {handle : Nat}
    {thread : Thread frontend}
    (hthreads : next.threads = Function.update world.threads handle thread)
    (hhistory : next.history = world.history) (hrunning : next.running = world.running)
    (hreplies : next.replies = world.replies)
    (hthread : ∀ answer ∈ thread.answers, answer.2 ≠ none) : next.Attended := by
  refine ⟨?_, ?_, ?_⟩
  · rw [hhistory, hrunning]
    exact hattended.executor
  · rw [hthreads]
    intro other
    by_cases hother : other = handle
    · rw [hother, Function.update_self]
      exact hthread
    · rw [Function.update_of_ne hother]
      exact hattended.threads other
  · rw [hreplies]
    exact hattended.replies

/-- A thread that is at work has an executor. -/
theorem Attended.live (hattended : world.Attended) {mayFail : Op → Prop}
    (hwired : world.Wired mayFail) {handle : Nat}
    (hopen : (world.threads handle).phase ≠ .closed) : world.history.engine.isSome = true := by
  cases hengine : world.history.engine with
  | some engine => rfl
  | none => exact absurd ((hwired.stopped (hattended.executor hengine)).2 handle) hopen

theorem Attended.send (hattended : world.Attended) {mayFail : Op → Prop}
    (hwired : world.Wired mayFail) (handle : Nat) : (world.send handle).Attended := by
  have hthread := hattended.threads handle
  rw [World.send]
  dsimp only
  split
  · rename_i hphase
    rw [if_pos (hattended.live hwired (by rw [hphase]; rintro ⟨⟩))]
    exact hattended.update rfl rfl rfl rfl hthread
  · rename_i hphase
    rw [if_pos (hattended.live hwired (by rw [hphase]; rintro ⟨⟩))]
    exact hattended.update rfl rfl rfl rfl hthread
  · exact hattended

theorem Attended.receive (hattended : world.Attended) {mayFail : Op → Prop}
    (hwired : world.Wired mayFail) (handle : Nat) : (world.receive handle).Attended := by
  have hthread := hattended.threads handle
  rw [World.receive]
  dsimp only
  split
  · refine hattended.update rfl rfl rfl rfl fun answer hanswer => ?_
    rcases List.mem_append.mp hanswer with hold | hlast
    · exact hthread answer hold
    · rw [List.mem_singleton.mp hlast]
      rintro ⟨⟩
  · rename_i hphase
    rw [if_pos (hattended.live hwired (by rw [hphase]; rintro ⟨⟩))]
    exact hattended
  · exact hattended.update rfl rfl rfl rfl hthread
  · rename_i hphase
    rw [if_pos (hattended.live hwired (by rw [hphase]; rintro ⟨⟩))]
    exact hattended
  · exact hattended

theorem Attended.reply (hattended : world.Attended) (handle : Nat) :
    (world.reply handle).Attended := by
  rw [World.reply]
  dsimp only
  split
  · have hset := @Attended.update _ _ hattended (world.set handle _) handle
      { world.threads handle with } rfl rfl rfl rfl (hattended.threads handle)
    refine ⟨hset.executor, ?_, ?_⟩
    · intro other
      dsimp only [World.set]
      by_cases hother : other = handle
      · rw [hother, Function.update_self]
        exact hattended.threads handle
      · rw [Function.update_of_ne hother]
        exact hattended.threads other
    · intro reply hreply
      rcases List.mem_append.mp hreply with hold | hlast
      · exact hattended.replies reply hold
      · rw [List.mem_singleton.mp hlast]
        exact hattended.threads handle
  · exact hattended

/-- With record-atomic crashes a delivery returns or takes the process with it. -/
theorem deliver_ne_err {engine : Engine KvStore} {faults : Faults} {disk : Disk} {ts : UInt64}
    {op : Op} (hatomic : (Event.deliver faults ts op).RecordAtomic) :
    (engine.deliver faults disk ts op).1 ≠ .err := by
  obtain ⟨fault, snapshotFault⟩ := faults
  obtain ⟨hfault, hsnapshot⟩ := hatomic
  by_cases hfresh : (dedup KvStore).fresh engine.toCore (ts, op)
  · rw [deliver_of_fresh hfresh]
    cases fault with
    | none =>
        dsimp only [append]
        rcases @snapshotIfDue_outcome KvStore _ _ _ _ hsnapshot _ with hok | hcrash
        · rw [hok]
          rintro ⟨⟩
        · rw [hcrash]
          rintro ⟨⟩
    | crashBefore => rintro ⟨⟩
    | crash written => rintro ⟨⟩
    | failBefore => exact hfault.elim
    | fail written => exact hfault.elim
  · rw [deliver_of_not_fresh hfresh]
    rintro ⟨⟩

/-- A delivery that does not fail leaves an engine, or no process. -/
theorem executor_deliver {engine : Engine KvStore} {faults : Faults} {ts : UInt64} {job : Job}
    {op : Op} (hengine : world.history.engine = some engine)
    (hne : (engine.deliver faults world.history.disk ts op).1 ≠ .err)
    (hgone : (world.deliver engine faults ts job op).history.engine = none) :
    (world.deliver engine faults ts job op).running = false := by
  have hstep : (world.history.step (.deliver faults ts op))
      = world.history.deliver engine faults ts op := by simp only [History.step, hengine]
  cases hout : (engine.deliver faults world.history.disk ts op).1 with
  | ok out =>
      simp only [deliver, hstep, hout, history_set] at hgone
      rw [History.deliver] at hgone
      generalize engine.deliver faults world.history.disk ts op = result at hout hgone
      obtain ⟨outcome, next, disk⟩ := result
      obtain rfl : outcome = .ok out := hout
      cases hgone
  | err => exact absurd hout hne
  | crash =>
      simp only [deliver, hout]
      rfl

theorem Attended.execute (hattended : world.Attended) {faults : Faults} {tick : UInt64}
    (hatomic : world.Delivers (fun _ event => event.RecordAtomic) (.execute faults tick)) :
    (world.execute faults tick).Attended := by
  rw [World.execute]
  cases hengine : world.history.engine with
  | none => exact hattended
  | some engine =>
      cases hqueue : world.queue with
      | nil => exact hattended
      | cons job queue =>
          obtain ⟨handle, call, req⟩ := job
          cases req with
          | len =>
              have hset : (world.set handle { world.threads handle with
                  phase := (world.threads handle).phase.answerLen engine.state.map.size }).Attended :=
                hattended.update rfl rfl rfl rfl (hattended.threads handle)
              exact ⟨hset.executor, hset.threads, hset.replies⟩
          | apply op =>
              have hpending : world.pending tick = some (max (world.clock + 1) tick, op) := by
                rw [pending, hengine, hqueue]
              have hrecord := hatomic _ hpending
              dsimp only at hrecord
              have hne := @deliver_ne_err engine faults world.history.disk _ op hrecord
              have hall := threads_deliver { world with clock := world.clock + 1, queue } engine faults
                (max (world.clock + 1) tick) ⟨handle, call, .apply op⟩ op
              have hreplies := replies_deliver { world with clock := world.clock + 1, queue } engine
                faults (max (world.clock + 1) tick) ⟨handle, call, .apply op⟩ op
              refine ⟨@executor_deliver _ { world with clock := world.clock + 1, queue } engine faults
                _ ⟨handle, call, .apply op⟩ op hengine hne, fun other => ?_, ?_⟩
              · obtain ⟨phase, logged, hother, -⟩ := hall other
                dsimp only at hother ⊢
                rw [hother]
                exact hattended.threads other
              · dsimp only at hreplies ⊢
                rw [hreplies]
                exact hattended.replies

theorem Attended.step (hattended : world.Attended) {mayFail : Op → Prop}
    (hwired : world.Wired mayFail) {event : WorldEvent frontend}
    (hatomic : world.Delivers (fun _ event => event.RecordAtomic) event) :
    (world.step event).Attended := by
  cases event with
  | accept handle client =>
      rw [World.step]
      split
      · have hset : (world.set handle { client, conn := frontend.init, phase := .idle }).Attended :=
          hattended.update rfl rfl rfl rfl fun _ hmem => absurd hmem List.not_mem_nil
        exact ⟨hset.executor, hset.threads, hset.replies⟩
      · exact hattended
  | disconnect handle =>
      rw [World.step]
      split
      · exact hattended.update rfl rfl rfl rfl (hattended.threads handle)
      · exact hattended
  | request handle request =>
      rw [World.step]
      split
      · exact hattended.update rfl rfl rfl rfl fun _ hmem => absurd hmem List.not_mem_nil
      · exact hattended
  | send handle => exact hattended.send hwired handle
  | execute faults tick => exact hattended.execute hatomic
  | receive handle => exact hattended.receive hwired handle
  | reply handle => exact hattended.reply handle
  | crash => exact ⟨fun _ => rfl, hattended.threads, hattended.replies⟩
  | restart interval =>
      rw [World.step]
      split
      · exact hattended
      · exact ⟨fun hnone => (by cases hnone), hattended.threads, hattended.replies⟩

/-- The log has the ops of the executions, in their order. -/
theorem appended_step (event : WorldEvent frontend) :
    (world.step event).history.appended.map Prod.snd
      = world.history.appended.map Prod.snd ++ (world.executes event).map Execution.op := by
  cases event with
  | accept handle client =>
      refine Eq.trans ?_ (List.append_nil _).symm
      rw [World.step]
      split <;> rfl
  | disconnect handle =>
      refine Eq.trans ?_ (List.append_nil _).symm
      rw [World.step]
      split <;> rfl
  | request handle request =>
      refine Eq.trans ?_ (List.append_nil _).symm
      rw [World.step]
      split <;> rfl
  | send handle =>
      refine Eq.trans ?_ (List.append_nil _).symm
      rw [World.step, history_send]
  | receive handle =>
      refine Eq.trans ?_ (List.append_nil _).symm
      rw [World.step, history_receive]
  | reply handle =>
      refine Eq.trans ?_ (List.append_nil _).symm
      rw [World.step, history_reply]
  | crash => exact (List.append_nil _).symm
  | restart interval =>
      refine Eq.trans ?_ (List.append_nil _).symm
      rw [World.step]
      split <;> rfl
  | execute faults tick =>
      rw [World.step, World.execute, executes]
      cases hengine : world.history.engine with
      | none => exact (List.append_nil _).symm
      | some engine =>
          cases hqueue : world.queue with
          | nil => exact (List.append_nil _).symm
          | cons job queue =>
              obtain ⟨handle, call, req⟩ := job
              cases req with
              | len => exact (List.append_nil _).symm
              | apply op =>
                  have happended := @appended_deliver _ { world with clock := world.clock + 1, queue }
                    engine faults (max (world.clock + 1) tick) ⟨handle, call, .apply op⟩ op hengine
                  dsimp only at happended ⊢
                  rw [happended]
                  split
                  · rw [List.map_append]
                    rfl
                  · exact (List.append_nil _).symm

/-! ### Every run -/

variable (numbering : Numbering frontend)

/-- The events of a server that dies between durable steps only, and stays within every limit of its
formats and counters. -/
def Persists (world : World frontend) (event : WorldEvent frontend) : Prop :=
  world.Admits numbering event ∧ world.SeqLeft numbering event ∧ world.Delivers History.Atomic event

instance (event : WorldEvent frontend) : Decidable (world.Persists numbering event) :=
  inferInstanceAs (Decidable (_ ∧ _ ∧ _))

variable {numbering} {γ : Type} {view : frontend.Conn → γ} {line : γ → frontend.Request → γ}
  {interval : UInt64} {events : List (WorldEvent frontend)}

/-- What a restart finds. -/
theorem restart_finds (hruns : world.Runs History.Sound interval)
    {executions : List (Execution frontend)}
    (happended : world.history.appended.map Prod.snd = executions.map Execution.op)
    (next : UInt64) :
    (startEngine world.history.disk next).state = stored StateMachine.default executions
      ∧ ∀ execution ∈ executions, execution.op.seq
        ≤ (startEngine world.history.disk next).highWater execution.op.client := by
  obtain ⟨inFlight, hobserved⟩ := hruns.observed
  have hcore : (startEngine world.history.disk next).toCore
      = serial KvStore world.history.appended := by
    rw [startEngine_eq_recover, recover_toCore, hruns.coherent.recovered]
  refine ⟨?_, fun execution hexecution => ?_⟩
  · have hstate : (serial KvStore world.history.appended).state
        = (world.history.appended.map Prod.snd).foldl (fun state op => (state.apply op).1)
          StateMachine.default := by
      rw [List.foldl_map]
      exact hobserved.state
    rw [hcore, hstate, happended, List.foldl_map]
    rfl
  · rw [hcore]
    have hmem : execution.op ∈ world.history.appended.map Prod.snd := by
      rw [happended]
      exact List.mem_map_of_mem hexecution
    obtain ⟨record, hrecord, hop⟩ := List.mem_map.mp hmem
    have hcovered : ¬ (dedup KvStore).fresh (serial KvStore world.history.appended) record :=
      Journal.Machine.not_fresh_deliverAll_of_mem hrecord
    rw [← hop]
    exact UInt64.not_lt.mp hcovered

theorem Persists.atomic
    (hpersists : Run.Guarded step (Persists numbering) (start interval : World frontend) events) :
    Run.Guarded step (Delivers History.Atomic) (start interval : World frontend) events :=
  hpersists.mono (fun _ => True) (fun _ _ _ _ => trivial) (fun _ _ hevent _ => hevent.2.2) trivial

theorem Persists.assigns
    (hpersists : Run.Guarded step (Persists numbering) (start interval : World frontend) events) :
    Run.Guarded step (Assigns numbering) (start interval : World frontend) events :=
  hpersists.mono (fun _ => True) (fun _ _ _ _ => trivial) (fun _ _ hevent _ =>
    ⟨hevent.1, hevent.2.1, hevent.2.2.imp fun _ _ hatomic => ⟨hatomic.1, hatomic.2.2⟩⟩) trivial

/-- What holds of such a server, given its executions. -/
structure Continues (numbering : Numbering frontend) (view : frontend.Conn → γ)
    (line : γ → frontend.Request → γ) (handed : Nat) (executions : List (Execution frontend))
    (world : World frontend) : Prop where
  serves : world.Serves numbering view line handed StateMachine.default executions
  grounded : Grounded StateMachine.default executions
  separates : world.Separates
  attended : world.Attended
  appended : world.history.appended.map Prod.snd = executions.map Execution.op

theorem continues_start (interval : UInt64) :
    (start interval : World frontend).Continues numbering view line 0 [] where
  serves := @serves_boot frontend γ view line numbering Disk.empty interval
    (by decide : (0 : UInt32).toNat < 2 ^ 32 - 1)
  grounded _ _ hexecution := by cases hexecution
  separates := ⟨List.Pairwise.nil, fun _ hreply => absurd hreply List.not_mem_nil,
    fun _ _ _ => List.disjoint_nil_left _⟩
  attended := ⟨fun hnone => (by cases hnone), fun _ _ hanswer => absurd hanswer List.not_mem_nil,
    fun _ hreply => absurd hreply List.not_mem_nil⟩
  appended := rfl

/-- **The run lemma for a server that crashes between durable steps**, from an empty directory. -/
theorem continues_run
    (hserve : ∀ client conn request answers turn,
      (frontend.serve client conn request).Ends answers turn →
        view turn.conn = line (view conn) request)
    (hpersists : Run.Guarded step (Persists numbering) (start interval) events)
    (hids : events.countP WorldEvent.accepts < 2 ^ 32 - 1) :
    (Run.run step (start interval : World frontend) events).Continues numbering view line
      (events.countP WorldEvent.accepts)
      (Run.trace step executes (start interval : World frontend) events) := by
  induction events using List.reverseRecOn with
  | nil => exact continues_start interval
  | append_singleton before event ih =>
      obtain ⟨hbefore, ⟨hadmits, hleft, hatomic⟩, -⟩ := (Run.guarded_append _).mp hpersists
      have hcount : (before ++ [event]).countP WorldEvent.accepts
          = before.countP WorldEvent.accepts + event.accepts.toNat := by
        rw [List.countP_append, List.countP_singleton]
        cases event.accepts <;> rfl
      rw [hcount] at hids ⊢
      have hless : before.countP WorldEvent.accepts < 2 ^ 32 - 1 := by omega
      obtain ⟨hserves, hgrounded, hseparates, hattended, happended⟩ := ih hbefore hless
      have hruns := runs_atomic (Persists.atomic hbefore)
      obtain ⟨-, -, hdisk⟩ := identities_run (Persists.assigns hbefore) hless
      rw [Run.run_append, Run.trace_append, Run.run_cons, Run.run_nil, Run.trace, Run.trace,
        List.append_nil]
      generalize Run.run step (start interval : World frontend) before = world at *
      generalize Run.trace step executes (start interval : World frontend) before = executions at *
      have hwired := hserves.wired
      have hfresh : ∀ engine ∈ world.history.engine, ∀ job ∈ world.queue, ∀ op ∈ job.req.op,
          engine.highWater op.client < op.seq :=
        fun engine hengine job hjob op hop => hserves.identities.fresh hwired hengine hjob hop
      have hnext := hserves.step hserve hadmits hleft hids (fun _ _ => hdisk)
        (fun next _ => .inr (restart_finds hruns happended next))
      refine ⟨hnext, hgrounded.step hserves.executes hwired event,
        hseparates.step hserves.executes hwired hfresh hnext.executes.keys,
        hattended.step hwired (hatomic.imp fun _ _ hatomic => hatomic.1), ?_⟩
      rw [appended_step, happended, List.map_append]

end World

end OneBarrier
