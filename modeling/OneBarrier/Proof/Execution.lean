import OneBarrier.Proof.Ordering
import OneBarrier.Proof.Replies

/-!
# What the executor has taken

The executor applies one op at a time, and each op belongs to a request of a connection. The list of
these executions, in the order they were made, is enough to say what the store is and why every
reply is as it is: an answer is the output of its op on the store the earlier executions lead to, and
the ops of one request are executed in the order it issues them.
-/

namespace OneBarrier

open Wire Durable

variable {frontend : Frontend}

/-- A request of a connection, with the connection's variables when it came and the requests before
it. -/
structure Serving (frontend : Frontend) where
  client : UInt32
  conn : frontend.Conn
  request : Option frontend.Request
  earlier : List frontend.Request

/-- An op, the request it is for, and the answers the request had by then. -/
structure Execution (frontend : Frontend) where
  serving : Serving frontend
  answers : List (Op × Option Output)
  op : Op

/-- The dedup key of the op. -/
def Execution.key (execution : Execution frontend) : UInt32 × UInt64 :=
  (execution.op.client, execution.op.seq)

def Thread.serving (thread : Thread frontend) : Serving frontend :=
  { client := thread.client, conn := thread.conn, request := thread.request
    earlier := thread.earlier }

def Served.serving (reply : Served frontend) : Serving frontend :=
  { client := reply.client, conn := reply.conn, request := reply.request, earlier := reply.earlier }

/-- The store a list of executions leads to. -/
def stored (initial : KvStore) (executions : List (Execution frontend)) : KvStore :=
  executions.foldl (fun store execution => (store.apply execution.op).1) initial

theorem stored_append (initial : KvStore) (executions more : List (Execution frontend)) :
    stored initial (executions ++ more) = stored (stored initial executions) more :=
  List.foldl_append

theorem stored_concat (initial : KvStore) (executions : List (Execution frontend))
    (execution : Execution frontend) :
    stored initial (executions ++ [execution])
      = ((stored initial executions).apply execution.op).1 := by
  rw [stored_append]
  rfl

/-- The execution an event makes: of an op whose record is complete. -/
def World.executes (world : World frontend) : WorldEvent frontend → List (Execution frontend)
  | .execute faults tick =>
      match world.history.engine, world.queue with
      | some engine, job :: _ =>
          match job.req with
          | .apply op =>
              if engine.logs faults (max (world.clock + 1) tick) op then
                let thread := world.threads job.handle
                [{ serving := thread.serving, answers := thread.answers, op }]
              else []
          | .len => []
      | _, _ => []
  | _ => []

/-- The answers of a request, each from its op's execution. The number is one behind the last
execution of the request so far. -/
inductive Explained (initial : KvStore) (executions : List (Execution frontend))
    (serving : Serving frontend) : Nat → List (Op × Option Output) → Prop
  | start (place : Nat) : Explained initial executions serving place []
  | answered {place : Nat} {answers : List (Op × Option Output)} {op : Op} {out : Output}
      (later : Nat) (hanswers : Explained initial executions serving place answers)
      (hlater : place ≤ later) (hexecuted : executions[later]? = some { serving, answers, op })
      (hout : out = ((stored initial (executions.take later)).apply op).2) :
      Explained initial executions serving (later + 1) (answers ++ [(op, some out)])
  | unanswered {place : Nat} {answers : List (Op × Option Output)} (op : Op)
      (hanswers : Explained initial executions serving place answers) :
      Explained initial executions serving place (answers ++ [(op, none)])

section Explained

variable {initial : KvStore} {executions : List (Execution frontend)} {serving : Serving frontend}

theorem Explained.append {place : Nat} {answers : List (Op × Option Output)}
    (hexplained : Explained initial executions serving place answers)
    (more : List (Execution frontend)) :
    Explained initial (executions ++ more) serving place answers := by
  induction hexplained with
  | start place => exact .start place
  | answered later hanswers hlater hexecuted hout ih =>
      obtain ⟨hlength, -⟩ := List.getElem?_eq_some_iff.mp hexecuted
      refine .answered later ih hlater ?_ ?_
      · rw [List.getElem?_append_left hlength]
        exact hexecuted
      · rw [List.take_append_of_le_length hlength.le]
        exact hout
  | unanswered op hanswers ih => exact .unanswered op ih

/-- The execution behind the last answer. -/
theorem Explained.last {place : Nat} {answers : List (Op × Option Output)} {op : Op} {out : Output}
    (hexplained : Explained initial executions serving place (answers ++ [(op, some out)])) :
    ∃ earlier later, place = later + 1 ∧ earlier ≤ later
      ∧ Explained initial executions serving earlier answers
      ∧ executions[later]? = some { serving, answers, op }
      ∧ out = ((stored initial (executions.take later)).apply op).2 := by
  generalize hgiven : answers ++ [(op, some out)] = given at hexplained
  cases hexplained with
  | start => simp at hgiven
  | answered later hanswers hlater hexecuted hout =>
      obtain ⟨rfl, hlast⟩ := List.append_inj' hgiven rfl
      cases hlast
      exact ⟨_, later, rfl, hlater, hanswers, hexecuted, hout⟩
  | unanswered other hanswers =>
      obtain ⟨-, hlast⟩ := List.append_inj' hgiven rfl
      cases hlast

/-- The answers are explained by executions made so far. -/
def Explains (initial : KvStore) (executions : List (Execution frontend))
    (serving : Serving frontend) (answers : List (Op × Option Output)) : Prop :=
  ∃ place, place ≤ executions.length ∧ Explained initial executions serving place answers

theorem explains_nil : Explains initial executions serving [] :=
  ⟨0, Nat.zero_le _, .start 0⟩

theorem Explains.append {answers : List (Op × Option Output)}
    (hexplains : Explains initial executions serving answers)
    (more : List (Execution frontend)) : Explains initial (executions ++ more) serving answers := by
  obtain ⟨place, hplace, hexplained⟩ := hexplains
  refine ⟨place, ?_, hexplained.append more⟩
  rw [List.length_append]
  exact Nat.le_add_right_of_le hplace

theorem Explains.unanswered {answers : List (Op × Option Output)}
    (hexplains : Explains initial executions serving answers) (op : Op) :
    Explains initial executions serving (answers ++ [(op, none)]) := by
  obtain ⟨place, hplace, hexplained⟩ := hexplains
  exact ⟨place, hplace, hexplained.unanswered op⟩

/-- The next execution answers the request's next op. -/
theorem Explains.answered {answers : List (Op × Option Output)}
    (hexplains : Explains initial executions serving answers) {op : Op} {out : Output}
    (hout : out = ((stored initial executions).apply op).2) :
    Explains initial (executions ++ [⟨serving, answers, op⟩]) serving
      (answers ++ [(op, some out)]) := by
  obtain ⟨place, hplace, hexplained⟩ := hexplains
  refine ⟨executions.length + 1, by simp, .answered _ (hexplained.append _) hplace ?_ ?_⟩
  · rw [List.getElem?_append_right (Nat.le_refl _), Nat.sub_self]
    rfl
  · rw [List.take_left]
    exact hout

end Explained

/-- The answers a thread has, the one on its way to it included. -/
def Thread.given (thread : Thread frontend) : List (Op × Option Output) :=
  match thread.phase with
  | .applying op _ (some out) => thread.answers ++ [(op, some out)]
  | _ => thread.answers

namespace World

variable {world : World frontend} {initial : KvStore} {executions : List (Execution frontend)}

/-- The executions account for the store, for what every thread has been answered, and for every
reply; no op is executed twice. -/
structure Executes (initial : KvStore) (executions : List (Execution frontend))
    (world : World frontend) : Prop where
  live : ∀ engine ∈ world.history.engine, engine.state = stored initial executions
  marked : ∀ engine ∈ world.history.engine, ∀ execution ∈ executions,
    execution.op.seq ≤ engine.highWater execution.op.client
  keys : (executions.map Execution.key).Nodup
  threads : ∀ handle, (world.threads handle).phase.conv ≠ none →
    Explains initial executions (world.threads handle).serving (world.threads handle).given
  replies : ∀ reply ∈ world.replies, Explains initial executions reply.serving reply.answers

theorem Executes.update (hexecutes : world.Executes initial executions) {next : World frontend}
    {handle : Nat} {thread : Thread frontend}
    (hthreads : next.threads = Function.update world.threads handle thread)
    (hhistory : next.history = world.history) (hreplies : next.replies = world.replies)
    (hthread : thread.phase.conv ≠ none →
      Explains initial executions thread.serving thread.given) :
    next.Executes initial executions := by
  refine ⟨?_, ?_, hexecutes.keys, ?_, ?_⟩
  · rw [hhistory]
    exact hexecutes.live
  · rw [hhistory]
    exact hexecutes.marked
  · intro other
    rw [hthreads]
    by_cases hother : other = handle
    · rw [hother, Function.update_self]
      exact hthread
    · rw [Function.update_of_ne hother]
      exact hexecutes.threads other
  · rw [hreplies]
    exact hexecutes.replies

theorem Executes.send (hexecutes : world.Executes initial executions) (handle : Nat) :
    (world.send handle).Executes initial executions := by
  have hthread := hexecutes.threads handle
  rw [World.send]
  dsimp only
  split
  · rename_i op next hphase
    rw [Thread.given, hphase] at hthread
    have hexplains := hthread (by rintro ⟨⟩)
    split
    · exact hexecutes.update rfl rfl rfl fun _ => hexplains
    · exact hexecutes.update rfl rfl rfl fun _ => hexplains.unanswered op
  · rename_i next hphase
    rw [Thread.given, hphase] at hthread
    have hexplains := hthread (by rintro ⟨⟩)
    split
    · exact hexecutes.update rfl rfl rfl fun _ => hexplains
    · exact hexecutes.update rfl rfl rfl fun _ => hexplains
  · exact hexecutes

theorem Executes.receive (hexecutes : world.Executes initial executions) (handle : Nat) :
    (world.receive handle).Executes initial executions := by
  have hthread := hexecutes.threads handle
  rw [World.receive]
  dsimp only
  split
  · rename_i op next out hphase
    rw [Thread.given, hphase] at hthread
    exact hexecutes.update rfl rfl rfl fun _ => hthread (by rintro ⟨⟩)
  · rename_i op next hphase
    rw [Thread.given, hphase] at hthread
    split
    · exact hexecutes
    · exact hexecutes.update rfl rfl rfl fun _ => (hthread (by rintro ⟨⟩)).unanswered op
  · rename_i next count hphase
    rw [Thread.given, hphase] at hthread
    exact hexecutes.update rfl rfl rfl fun _ => hthread (by rintro ⟨⟩)
  · rename_i next hphase
    rw [Thread.given, hphase] at hthread
    split
    · exact hexecutes
    · exact hexecutes.update rfl rfl rfl fun _ => hthread (by rintro ⟨⟩)
  · exact hexecutes

theorem Executes.reply (hexecutes : world.Executes initial executions) (handle : Nat) :
    (world.reply handle).Executes initial executions := by
  have hthread := hexecutes.threads handle
  rw [World.reply]
  dsimp only
  split
  · rename_i turn hphase
    rw [Thread.given, hphase] at hthread
    have hexplains := hthread (by rintro ⟨⟩)
    refine ⟨hexecutes.live, hexecutes.marked, hexecutes.keys, ?_, ?_⟩
    · intro other hconv
      dsimp only [World.set] at hconv ⊢
      by_cases hother : other = handle
      · rw [hother, Function.update_self] at hconv
        dsimp only at hconv
        split at hconv <;> exact absurd rfl hconv
      · rw [Function.update_of_ne hother] at hconv ⊢
        exact hexecutes.threads other hconv
    · intro reply hreply
      rcases List.mem_append.mp hreply with hold | hlast
      · exact hexecutes.replies reply hold
      · rw [List.mem_singleton.mp hlast]
        exact hexplains
  · exact hexecutes

/-- An execution is for the thread at the head of the queue. -/
theorem executes_cases {event : WorldEvent frontend} {execution : Execution frontend}
    (hexecution : execution ∈ world.executes event) :
    ∃ engine faults tick job queue op, event = .execute faults tick
      ∧ world.history.engine = some engine ∧ world.queue = job :: queue ∧ job.req = .apply op
      ∧ engine.logs faults (max (world.clock + 1) tick) op = true
      ∧ execution = ⟨(world.threads job.handle).serving, (world.threads job.handle).answers, op⟩
      ∧ world.executes event = [execution] := by
  cases event with
  | execute faults tick =>
      rw [executes] at hexecution ⊢
      cases hengine : world.history.engine with
      | none => simp [hengine] at hexecution
      | some engine =>
          cases hqueue : world.queue with
          | nil => simp [hengine, hqueue] at hexecution
          | cons job queue =>
              obtain ⟨handle, call, req⟩ := job
              cases req with
              | len => simp [hengine, hqueue] at hexecution
              | apply op =>
                  simp only [hengine, hqueue] at hexecution ⊢
                  split at hexecution
                  · rename_i hlogs
                    obtain rfl := List.mem_singleton.mp hexecution
                    exact ⟨engine, faults, tick, _, queue, op, rfl, rfl, rfl, rfl, hlogs, rfl,
                      if_pos hlogs⟩
                  · cases hexecution
  | _ => cases hexecution

/-- A delivery of a new op either makes one more execution, or ends the engine. -/
theorem Executes.deliver (hexecutes : world.Executes initial executions) {engine : Engine KvStore}
    {faults : Faults} {ts clock : UInt64} {job : Job} {queue : List Job} {op : Op}
    {next : Option Output → Conv (Turn frontend.Conn)}
    (hengine : world.history.engine = some engine)
    (hphase : (world.threads job.handle).phase = .applying op next none)
    (hfresh : (dedup KvStore).fresh engine.toCore (ts, op)) :
    (World.deliver { world with clock, queue } engine faults ts job op).Executes initial
      (executions ++ if engine.logs faults ts op then
        [⟨(world.threads job.handle).serving, (world.threads job.handle).answers, op⟩] else []) := by
  have hall := threads_deliver { world with clock, queue } engine faults ts job op
  have hafter := @engine_deliver _ { world with clock, queue } engine faults ts job op hengine
  have hreplies := replies_deliver { world with clock, queue } engine faults ts job op
  generalize World.deliver { world with clock, queue } engine faults ts job op = after
    at hall hafter hreplies ⊢
  dsimp only at hall hafter hreplies
  have hown := hexecutes.threads job.handle (by rw [hphase]; rintro ⟨⟩)
  rw [Thread.given, hphase] at hown
  have hlive := hexecutes.live engine hengine
  have hlogs : ∀ out, (engine.deliver faults world.history.disk ts op).1 = .ok out →
      out = ((stored initial executions).apply op).2 ∧ engine.logs faults ts op = true := by
    intro out hok
    obtain ⟨hfault, hout⟩ := output_of_deliver_ok hfresh hok
    refine ⟨?_, ?_⟩
    · rw [hout, ← hlive]
      rfl
    · simp [Engine.logs, applyDedup_of_fresh hfresh, AppendFault.completes, hfault]
  refine ⟨?_, ?_, ?_, ?_, ?_⟩
  · intro live hmem
    obtain ⟨rfl, out, hok⟩ := hafter hmem
    rw [if_pos (hlogs out hok).2, stored_concat, ← hlive, deliver_toCore,
      Journal.Machine.deliver_of_fresh hfresh, state_apply hfresh]
    rfl
  · intro live hmem execution hexecution
    obtain ⟨rfl, out, hok⟩ := hafter hmem
    rw [deliver_toCore, ← snd_applyDedup, Core.highWater_applyDedup _ hfresh]
    rw [if_pos (hlogs out hok).2] at hexecution
    rcases List.mem_append.mp hexecution with hold | hlast
    · have hseq := hexecutes.marked engine hengine execution hold
      split
      · rename_i hclient
        rw [← hclient] at hseq
        exact UInt64.le_of_lt (UInt64.lt_of_le_of_lt hseq hfresh)
      · exact hseq
    · rw [List.mem_singleton.mp hlast, if_pos rfl]
      exact UInt64.le_refl _
  · split
    · rw [List.map_append, List.nodup_append]
      refine ⟨hexecutes.keys, by simp, fun key hkey other hother hsame => ?_⟩
      obtain ⟨execution, hexecution, rfl⟩ := List.mem_map.mp hkey
      obtain rfl := List.mem_singleton.mp hother
      obtain ⟨hclient, hseq⟩ := Prod.mk.inj hsame
      have hcovered := hexecutes.marked engine hengine execution hexecution
      rw [hclient, hseq] at hcovered
      exact UInt64.not_le.mpr hfresh hcovered
    · rw [List.append_nil]
      exact hexecutes.keys
  · intro other hconv
    obtain ⟨phase, logged, hother, hcases⟩ := hall other
    rw [hother] at hconv ⊢
    rcases hcases with rfl | ⟨rfl, -⟩ | ⟨rfl, out, rfl, hok⟩
    · exact absurd rfl hconv
    · exact (hexecutes.threads other hconv).append _
    · rw [if_pos (hlogs out hok).2, Thread.given, hphase]
      exact hown.answered (hlogs out hok).1
  · rw [hreplies]
    exact fun reply hreply => (hexecutes.replies reply hreply).append _

/-- **The step lemma for executions.** -/
theorem Executes.step (hexecutes : world.Executes initial executions) {mayFail : Op → Prop}
    (hwired : world.Wired mayFail) {event : WorldEvent frontend}
    (hfresh : ∀ engine ∈ world.history.engine, ∀ job ∈ world.queue, ∀ op ∈ job.req.op,
      engine.highWater op.client < op.seq)
    (hrestart : ∀ interval, event = .restart interval → world.running = true
      ∨ (startEngine world.history.disk interval).state = stored initial executions
        ∧ ∀ execution ∈ executions, execution.op.seq
          ≤ (startEngine world.history.disk interval).highWater execution.op.client) :
    (world.step event).Executes initial (executions ++ world.executes event) := by
  have hsame : ∀ next : World frontend, next.Executes initial executions →
      next.Executes initial (executions ++ []) := by
    intro next hnext
    rw [List.append_nil]
    exact hnext
  cases event with
  | accept handle client =>
      refine hsame _ ?_
      rw [World.step]
      split
      · exact hexecutes.update rfl rfl rfl fun hconv => absurd rfl hconv
      · exact hexecutes
  | disconnect handle =>
      refine hsame _ ?_
      rw [World.step]
      split
      · exact hexecutes.update rfl rfl rfl fun hconv => absurd rfl hconv
      · exact hexecutes
  | request handle request =>
      refine hsame _ ?_
      rw [World.step]
      split
      · exact hexecutes.update rfl rfl rfl fun _ => explains_nil
      · exact hexecutes
  | send handle => exact hsame _ (hexecutes.send handle)
  | receive handle => exact hsame _ (hexecutes.receive handle)
  | reply handle => exact hsame _ (hexecutes.reply handle)
  | execute faults tick =>
      rw [World.step, World.execute, World.executes]
      cases hengine : world.history.engine with
      | none => exact hsame _ hexecutes
      | some engine =>
          cases hqueue : world.queue with
          | nil => exact hsame _ hexecutes
          | cons job queue =>
              have hjob : job ∈ world.queue := by simp [hqueue]
              have hawaits := hwired.awaited job hjob
              obtain ⟨handle, call, req⟩ := job
              cases req with
              | apply op =>
                  obtain ⟨next, hphase⟩ := hawaits
                  exact hexecutes.deliver hengine hphase (hfresh engine hengine _ hjob op rfl)
              | len =>
                  obtain ⟨next, hphase⟩ := hawaits
                  have hthread := hexecutes.threads handle (by rw [hphase]; rintro ⟨⟩)
                  rw [Thread.given, hphase] at hthread
                  refine hsame _ (hexecutes.update rfl rfl rfl fun _ => ?_)
                  rw [Thread.given, hphase]
                  exact hthread
  | crash =>
      exact hsame _ ⟨by rintro _ ⟨⟩, by rintro _ ⟨⟩, hexecutes.keys, fun _ hconv => absurd rfl hconv,
        hexecutes.replies⟩
  | restart interval =>
      refine hsame _ ?_
      rw [World.step]
      split
      · exact hexecutes
      · rename_i hstopped
        obtain hrunning | hrecovered := hrestart interval rfl
        · exact absurd hrunning hstopped
        · refine ⟨?_, ?_, hexecutes.keys, ?_, hexecutes.replies⟩
          · rintro engine ⟨⟩
            exact hrecovered.1
          · rintro engine ⟨⟩
            exact hrecovered.2
          · intro handle hconv
            have hclosed := (hwired.stopped (by simpa using hstopped)).2 handle
            rw [hclosed] at hconv
            exact absurd rfl hconv

end World

end OneBarrier
