import OneBarrier.Proof.Ordering
import Mathlib.Data.List.Perm.Subperm

/-!
# Durable linearizability

Clients with ids of their own that number their ops from one never issue an op the engine has seen,
so every call is answered from its place in the order of the records. The order survives crashes,
because it is the order a recovery replays.
-/

namespace OneBarrier

open Wire Utf8 Durable Linear

/-- A client of the service: its ops one at a time, under seq 1, 2, 3 and so on. -/
def direct : Frontend where
  Conn := UInt64
  Request := OpKind
  init := 0
  read := pure .close
  serve client seq kind := do
    let _ ← Conv.applied { client, seq := seq + 1, kind }
    pure { conn := seq + 1, output := [] }

/-- The seq of the client's last op. -/
def Thread.seq (thread : Thread direct) : UInt64 := thread.conn

/-- No op of the client is logged above this seq. -/
def Below (appended : List Record) (client : UInt32) (seq : UInt64) : Prop :=
  ∀ record ∈ appended, record.2.client = client → record.2.seq ≤ seq

theorem Below.mono {appended : List Record} {client : UInt32} {seq next : UInt64}
    (hbelow : Below appended client seq) (hnext : seq ≤ next) : Below appended client next :=
  fun record hrecord hclient => UInt64.le_trans (hbelow record hrecord hclient) hnext

theorem Below.append {appended : List Record} {client : UInt32} {seq : UInt64} {record : Record}
    (hbelow : Below appended client seq) (hrecord : record.2.client = client → record.2.seq ≤ seq) :
    Below (appended ++ [record]) client seq := by
  intro other hother hclient
  rcases List.mem_append.mp hother with hold | hlast
  · exact hbelow other hold hclient
  · rw [List.mem_singleton.mp hlast] at hclient ⊢
    exact hrecord hclient

theorem highWater_serial_le {appended : List Record} {client : UInt32} {seq : UInt64}
    (hbelow : Below appended client seq) : (serial KvStore appended).highWater client ≤ seq := by
  induction appended using List.reverseRecOn with
  | nil => exact UInt64.zero_le
  | append_singleton appended record ih =>
      have hold := ih fun other hother => hbelow other (List.mem_append_left _ hother)
      rw [serial_concat]
      by_cases hfresh : (dedup KvStore).fresh (serial KvStore appended) record
      · rw [Journal.Machine.deliver_of_fresh hfresh]
        change (Core.applyDedup _ _ _).2.highWater client ≤ seq
        rw [Core.highWater_applyDedup client hfresh]
        split
        · rename_i hclient
          exact hbelow record (List.mem_append_right _ (List.mem_singleton_self _)) hclient
        · exact hold
      · rw [Journal.Machine.deliver_of_not_fresh hfresh]
        exact hold

/-- What the thread does next is to answer its request, and then its seq is one higher. -/
def Thread.Finishes (thread : Thread direct) (next : Option Output → Conv (Turn direct.Conn)) :
    Prop :=
  ∀ answer, next answer = .ret { conn := thread.seq + 1, output := [] }

/-- The op is the thread's own, under the next seq. -/
def Thread.Owns (thread : Thread direct) (op : Op) : Prop :=
  op.client = thread.client ∧ op.seq = thread.seq + 1 ∧ thread.seq < thread.seq + 1

/-- The numbers a thread's ops have, and those of its client in the log. -/
def Thread.Numbered (live : Prop) (appended : List Record) (thread : Thread direct) : Prop :=
  match thread.phase with
  | .closed => True
  | .idle => Below appended thread.client thread.seq
  | .serving (.ret turn) =>
      turn = { conn := thread.seq + 1, output := [] }
        ∧ Below appended thread.client (thread.seq + 1)
  | .serving (.apply op next) =>
      thread.Owns op ∧ thread.Finishes next ∧ Below appended thread.client thread.seq
  | .applying op next none =>
      thread.Owns op ∧ thread.Finishes next ∧ Below appended thread.client (thread.seq + 1)
        ∧ (live → Below appended thread.client thread.seq)
  | .applying op next (some _) =>
      thread.Owns op ∧ thread.Finishes next ∧ Below appended thread.client (thread.seq + 1)
  | .serving (.len _) | .counting _ _ => False

theorem Thread.Numbered.mono {live live' : Prop} {appended appended' : List Record}
    {thread : Thread direct} (hnumbered : thread.Numbered live appended) (hlive : live' → live)
    (hbelow : ∀ seq, Below appended thread.client seq → Below appended' thread.client seq) :
    thread.Numbered live' appended' := by
  unfold Thread.Numbered at hnumbered ⊢
  split
  · trivial
  · rename_i hphase
    rw [hphase] at hnumbered
    exact hbelow _ hnumbered
  · rename_i hphase
    rw [hphase] at hnumbered
    exact ⟨hnumbered.1, hbelow _ hnumbered.2⟩
  · rename_i hphase
    rw [hphase] at hnumbered
    exact ⟨hnumbered.1, hnumbered.2.1, hbelow _ hnumbered.2.2⟩
  · rename_i hphase
    rw [hphase] at hnumbered
    obtain ⟨howns, hfinishes, hold, hlater⟩ := hnumbered
    exact ⟨howns, hfinishes, hbelow _ hold, fun halive => hbelow _ (hlater (hlive halive))⟩
  · rename_i hphase
    rw [hphase] at hnumbered
    exact ⟨hnumbered.1, hnumbered.2.1, hbelow _ hnumbered.2.2⟩
  · rename_i hphase
    rw [hphase] at hnumbered
    exact hnumbered
  · rename_i hphase
    rw [hphase] at hnumbered
    exact hnumbered

namespace World

variable {world : World direct}

/-- Every client has its own id, taken from `used`, and its own place in the numbering. -/
structure Numbers (used : List UInt32) (world : World direct) : Prop where
  numbered : ∀ handle,
    (world.threads handle).Numbered (world.history.engine ≠ none) world.history.appended
  clients : ∀ first second, (world.threads first).phase.isClosed = false →
    (world.threads second).phase.isClosed = false →
      (world.threads first).client = (world.threads second).client → first = second
  known : ∀ handle, (world.threads handle).phase.isClosed = false →
    (world.threads handle).client ∈ used
  logged : ∀ record ∈ world.history.appended, record.2.client ∈ used

/-- The client has a seq left for another op. -/
def HasSeq (world : World direct) : WorldEvent direct → Prop
  | .request handle _ => (world.threads handle).seq < (world.threads handle).seq + 1
  | _ => True

instance (event : WorldEvent direct) : Decidable (world.HasSeq event) := by
  cases event <;> unfold HasSeq <;> infer_instance

variable {used : List UInt32}

theorem Numbers.set (hnumbers : world.Numbers used) {handle : Nat} {thread : Thread direct}
    (hnumbered : thread.Numbered (world.history.engine ≠ none) world.history.appended)
    (hclient : thread.client = (world.threads handle).client)
    (hopen : (world.threads handle).phase.isClosed = false) :
    (world.set handle thread).Numbers used := by
  have hsame : ∀ other, (Function.update world.threads handle thread other).client
      = (world.threads other).client := by
    intro other
    by_cases hother : other = handle
    · rw [hother, Function.update_self, hclient]
    · rw [Function.update_of_ne hother]
  have hopened : ∀ other,
      (Function.update world.threads handle thread other).phase.isClosed = false →
        (world.threads other).phase.isClosed = false := by
    intro other hphase
    by_cases hother : other = handle
    · rw [hother]
      exact hopen
    · rwa [Function.update_of_ne hother] at hphase
  refine ⟨?_, ?_, ?_, hnumbers.logged⟩
  · intro other
    simp only [World.set]
    by_cases hother : other = handle
    · rw [hother, Function.update_self]
      exact hnumbered
    · rw [Function.update_of_ne hother]
      exact hnumbers.numbered other
  · intro first second hfirst hsecond hclients
    simp only [World.set, hsame] at hclients
    exact hnumbers.clients first second (hopened first hfirst) (hopened second hsecond) hclients
  · intro other hother
    simp only [World.set, hsame]
    exact hnumbers.known other (hopened other hother)

/-- The op at the head of the queue is new to the engine. -/
theorem Numbers.fresh (hnumbers : world.Numbers used) {mayFail : Op → Prop}
    (hwired : world.Wired mayFail) (hcoherent : world.history.Coherent)
    (event : WorldEvent direct) : world.DeliversFresh event := by
  cases event with
  | execute faults tick =>
      intro engine hengine record hrecord
      have hlive : world.history.engine = some engine := hengine
      rw [pending, hlive] at hrecord
      cases hqueue : world.queue with
      | nil =>
          rw [hqueue] at hrecord
          cases hrecord
      | cons job queue =>
          have hawaits := hwired.awaited job (by simp [hqueue])
          have hnumbered := hnumbers.numbered job.handle
          rw [hqueue] at hrecord
          obtain ⟨handle, call, req⟩ := job
          cases req with
          | len => cases hrecord
          | apply op =>
              obtain ⟨next, hphase⟩ := hawaits
              rw [Thread.Numbered, hphase] at hnumbered
              obtain ⟨⟨hclient, hseq, hlt⟩, -, -, hbelow⟩ := hnumbered
              cases hrecord
              change engine.toCore.highWater op.client < op.seq
              rw [hcoherent.live engine hlive, hclient, hseq]
              exact UInt64.lt_of_le_of_lt (highWater_serial_le (hbelow (by simp [hlive]))) hlt
  | _ => trivial

theorem Numbers.deliver (hnumbers : world.Numbers used) {engine : Engine KvStore} {faults : Faults}
    {ts clock : UInt64} {job : Job} {queue : List Job} {op : Op}
    {next : Option Output → Conv (Turn direct.Conn)}
    (hengine : world.history.engine = some engine)
    (hphase : (world.threads job.handle).phase = .applying op next none) :
    (World.deliver { world with clock, queue } engine faults ts job op).Numbers used := by
  have hall := threads_deliver { world with clock, queue } engine faults ts job op
  have happended := @appended_deliver _ { world with clock, queue } engine faults ts job op hengine
  generalize World.deliver { world with clock, queue } engine faults ts job op = after
    at hall happended ⊢
  dsimp only at hall happended
  have hown := hnumbers.numbered job.handle
  rw [Thread.Numbered, hphase] at hown
  obtain ⟨⟨hclient, hseq, hlt⟩, hfinishes, hbelow, -⟩ := hown
  have hopen : (world.threads job.handle).phase.isClosed = false := by rw [hphase]; rfl
  have hsame : ∀ other, (after.threads other).client = (world.threads other).client := by
    intro other
    obtain ⟨phase, logged, hother, -⟩ := hall other
    rw [hother]
  have hopened : ∀ other, (after.threads other).phase.isClosed = false →
      (world.threads other).phase.isClosed = false := by
    intro other hafter
    obtain ⟨phase, logged, hother, hcases⟩ := hall other
    rw [hother] at hafter
    rcases hcases with hclosed | ⟨hsame, -⟩ | ⟨hhandle, -⟩
    · rw [hclosed] at hafter
      cases hafter
    · rwa [hsame] at hafter
    · rwa [hhandle]
  -- the op's own thread is one seq further, the others are not touched by the new record
  have hlater : ∀ other seq, (other = job.handle → op.seq ≤ seq) →
      (world.threads other).phase.isClosed = false →
        Below world.history.appended (world.threads other).client seq →
          Below after.history.appended (world.threads other).client seq := by
    intro other seq hown hother hold
    rw [happended]
    split
    · refine hold.append fun hclients => hown ?_
      exact hnumbers.clients other job.handle hother hopen (hclients.symm.trans hclient)
    · exact hold
  refine ⟨?_, ?_, ?_, ?_⟩
  · intro other
    obtain ⟨phase, logged, hother, hcases⟩ := hall other
    rw [hother]
    rcases hcases with rfl | ⟨rfl, hgone⟩ | ⟨rfl, out, rfl, hok⟩
    · trivial
    · by_cases hhandle : other = job.handle
      · subst hhandle
        rw [hphase]
        exact ⟨⟨hclient, hseq, hlt⟩, hfinishes,
          hlater job.handle _ (fun _ => hseq ▸ UInt64.le_refl _) hopen hbelow,
          fun hlive => absurd (hgone rfl) hlive⟩
      · by_cases hclosed : (world.threads other).phase.isClosed = false
        · have hmono := (hnumbers.numbered other).mono (fun _ => by simp [hengine] :
              after.history.engine ≠ none → world.history.engine ≠ none)
            fun seq => hlater other seq (fun heq => absurd heq hhandle) hclosed
          exact hmono
        · have hphase : (world.threads other).phase = .closed :=
            Phase.eq_closed_of_isClosed (by simpa using hclosed)
          rw [hphase]
          trivial
    · rw [hphase]
      exact ⟨⟨hclient, hseq, hlt⟩, hfinishes,
        hlater job.handle _ (fun _ => hseq ▸ UInt64.le_refl _) hopen hbelow⟩
  · intro first second hfirst hsecond hclients
    rw [hsame, hsame] at hclients
    exact hnumbers.clients first second (hopened first hfirst) (hopened second hsecond) hclients
  · intro other hother
    rw [hsame]
    exact hnumbers.known other (hopened other hother)
  · intro record hrecord
    rw [happended] at hrecord
    split at hrecord
    · rcases List.mem_append.mp hrecord with hold | hlast
      · exact hnumbers.logged record hold
      · rw [List.mem_singleton.mp hlast]
        change op.client ∈ used
        rw [hclient]
        exact hnumbers.known job.handle hopen
    · exact hnumbers.logged record hrecord

/-- The id an event brings in. -/
def acceptedClient : WorldEvent direct → Option UInt32
  | .accept _ client => some client
  | _ => none

theorem Numbers.mono (hnumbers : world.Numbers used) {more : List UInt32}
    (hmore : ∀ client ∈ used, client ∈ more) : world.Numbers more :=
  ⟨hnumbers.numbered, hnumbers.clients, fun handle hopen => hmore _ (hnumbers.known handle hopen),
    fun record hrecord => hmore _ (hnumbers.logged record hrecord)⟩

theorem Numbers.accept (hnumbers : world.Numbers used) {handle : Nat} {client : UInt32}
    (hnew : client ∉ used) :
    (world.set handle { client, conn := direct.init, phase := .idle }).Numbers (used ++ [client]) := by
  have hfree : ∀ other, (world.threads other).phase.isClosed = false →
      (world.threads other).client ≠ client := by
    intro other hother hsame
    exact hnew (hsame ▸ hnumbers.known other hother)
  refine ⟨?_, ?_, ?_, fun record hrecord => List.mem_append_left _ (hnumbers.logged record hrecord)⟩
  · intro other
    simp only [World.set]
    by_cases hother : other = handle
    · rw [hother, Function.update_self]
      intro record hrecord hclient
      have hused := hnumbers.logged record hrecord
      rw [hclient] at hused
      exact absurd hused hnew
    · rw [Function.update_of_ne hother]
      exact hnumbers.numbered other
  · intro first second hfirst hsecond hclients
    simp only [World.set] at hfirst hsecond hclients
    by_cases hone : first = handle
    · by_cases htwo : second = handle
      · exact hone.trans htwo.symm
      · rw [hone, Function.update_self, Function.update_of_ne htwo] at hclients
        rw [Function.update_of_ne htwo] at hsecond
        exact absurd hclients.symm (hfree second hsecond)
    · rw [Function.update_of_ne hone] at hfirst hclients
      by_cases htwo : second = handle
      · rw [htwo, Function.update_self] at hclients
        exact absurd hclients (hfree first hfirst)
      · rw [Function.update_of_ne htwo] at hsecond hclients
        exact hnumbers.clients first second hfirst hsecond hclients
  · intro other hother
    simp only [World.set] at hother ⊢
    by_cases hsame : other = handle
    · rw [hsame, Function.update_self]
      exact List.mem_append_right _ (List.mem_singleton_self _)
    · rw [Function.update_of_ne hsame] at hother ⊢
      exact List.mem_append_left _ (hnumbers.known other hother)

theorem Numbers.send (hnumbers : world.Numbers used) (handle : Nat) :
    (world.send handle).Numbers used := by
  rw [World.send]
  dsimp only
  have hnumbered := hnumbers.numbered handle
  rw [Thread.Numbered] at hnumbered
  split
  · rename_i op next hphase
    have hopen : (world.threads handle).phase.isClosed = false := by rw [hphase]; rfl
    rw [hphase] at hnumbered
    obtain ⟨⟨hclient, hseq, hlt⟩, hfinishes, hbelow⟩ := hnumbered
    have hlater := hbelow.mono (UInt64.le_of_lt hlt)
    split
    · have hset : (world.set handle { world.threads handle with
          phase := .applying op next none, call := world.calls }).Numbers used :=
        hnumbers.set ⟨⟨hclient, hseq, hlt⟩, hfinishes, hlater, fun _ => hbelow⟩ rfl hopen
      exact ⟨hset.numbered, hset.clients, hset.known, hset.logged⟩
    · refine hnumbers.set ?_ rfl hopen
      rw [Thread.Numbered, Thread.resume, hfinishes none]
      exact ⟨rfl, hlater⟩
  · rename_i next hphase
    rw [hphase] at hnumbered
    exact hnumbered.elim
  · exact hnumbers

theorem Numbers.receive (hnumbers : world.Numbers used) (handle : Nat) :
    (world.receive handle).Numbers used := by
  rw [World.receive]
  dsimp only
  have hnumbered := hnumbers.numbered handle
  rw [Thread.Numbered] at hnumbered
  split
  · rename_i op next out hphase
    have hopen : (world.threads handle).phase.isClosed = false := by rw [hphase]; rfl
    rw [hphase] at hnumbered
    obtain ⟨-, hfinishes, hbelow⟩ := hnumbered
    have hset : (world.set handle ((world.threads handle).resume op next (some out))).Numbers used := by
      refine hnumbers.set ?_ rfl hopen
      rw [Thread.Numbered, Thread.resume, hfinishes (some out)]
      exact ⟨rfl, hbelow⟩
    exact ⟨hset.numbered, hset.clients, hset.known, hset.logged⟩
  · rename_i op next hphase
    have hopen : (world.threads handle).phase.isClosed = false := by rw [hphase]; rfl
    rw [hphase] at hnumbered
    obtain ⟨-, hfinishes, hbelow, -⟩ := hnumbered
    split
    · exact hnumbers
    · refine hnumbers.set ?_ rfl hopen
      rw [Thread.Numbered, Thread.resume, hfinishes none]
      exact ⟨rfl, hbelow⟩
  · rename_i next count hphase
    rw [hphase] at hnumbered
    exact hnumbered.elim
  · rename_i next hphase
    rw [hphase] at hnumbered
    exact hnumbered.elim
  · exact hnumbers

theorem Numbers.closed {next : World direct} (hnumbers : world.Numbers used)
    (hclosed : ∀ handle, (next.threads handle).phase = .closed)
    (happended : next.history.appended = world.history.appended) : next.Numbers used := by
  refine ⟨?_, ?_, ?_, by rw [happended]; exact hnumbers.logged⟩
  · intro handle
    rw [Thread.Numbered, hclosed handle]
    trivial
  · intro first second hfirst
    rw [hclosed first] at hfirst
    cases hfirst
  · intro handle hopen
    rw [hclosed handle] at hopen
    cases hopen

theorem Numbers.keep (hnumbers : world.Numbers used) {mayFail : Op → Prop}
    (hwired : world.Wired mayFail) {event : WorldEvent direct} (hseq : world.HasSeq event)
    (hnone : acceptedClient event = none) : (world.step event).Numbers used := by
  cases event with
  | accept handle client => cases hnone
  | disconnect handle =>
      rw [World.step]
      split
      · rename_i hphase
        exact hnumbers.set trivial rfl (by rw [hphase]; rfl)
      · exact hnumbers
  | request handle kind =>
      rw [World.step]
      split
      · rename_i hphase
        have hnumbered := hnumbers.numbered handle
        rw [Thread.Numbered, hphase] at hnumbered
        exact hnumbers.set ⟨⟨rfl, rfl, hseq⟩, fun _ => rfl, hnumbered⟩ rfl (by rw [hphase]; rfl)
      · exact hnumbers
  | send handle => exact hnumbers.send handle
  | receive handle => exact hnumbers.receive handle
  | execute faults tick =>
      rw [World.step, World.execute]
      cases hengine : world.history.engine with
      | none => exact hnumbers
      | some engine =>
          cases hqueue : world.queue with
          | nil => exact hnumbers
          | cons job queue =>
              have hawaits := hwired.awaited job (by simp [hqueue])
              obtain ⟨handle, call, req⟩ := job
              cases req with
              | apply op =>
                  obtain ⟨next, hphase⟩ := hawaits
                  exact hnumbers.deliver hengine hphase
              | len =>
                  obtain ⟨next, hphase⟩ := hawaits
                  have hnumbered := hnumbers.numbered handle
                  rw [Thread.Numbered, hphase] at hnumbered
                  exact hnumbered.elim
  | reply handle =>
      rw [World.step, World.reply]
      dsimp only
      split
      · rename_i turn hphase
        have hnumbered := hnumbers.numbered handle
        rw [Thread.Numbered, hphase] at hnumbered
        obtain ⟨rfl, hbelow⟩ := hnumbered
        have hset : (world.set handle { world.threads handle with
            conn := (world.threads handle).seq + 1, phase := .idle
            earlier := (world.threads handle).earlier ++ (world.threads handle).request.toList
            }).Numbers used := hnumbers.set hbelow rfl (by rw [hphase]; rfl)
        exact ⟨hset.numbered, hset.clients, hset.known, hset.logged⟩
      · exact hnumbers
  | crash => exact hnumbers.closed (fun _ => rfl) rfl
  | restart interval =>
      rw [World.step]
      split
      · exact hnumbers
      · rename_i hstopped
        exact hnumbers.closed (hwired.stopped (by simpa using hstopped)).2 rfl

/-- **The step lemma for the numbering.** -/
theorem Numbers.step (hnumbers : world.Numbers used) {mayFail : Op → Prop}
    (hwired : world.Wired mayFail) {event : WorldEvent direct} (hseq : world.HasSeq event)
    (hnew : ∀ client ∈ acceptedClient event, client ∉ used) :
    (world.step event).Numbers (used ++ (acceptedClient event).toList) := by
  cases haccepted : acceptedClient event with
  | none =>
      rw [Option.toList_none, List.append_nil]
      exact hnumbers.keep hwired hseq haccepted
  | some client =>
      have hunused := hnew client haccepted
      cases event with
      | accept handle id =>
          obtain rfl : id = client := Option.some.inj haccepted
          rw [World.step]
          split
          · have hset : (world.set handle { client := id, conn := direct.init, phase := .idle }).Numbers
                (used ++ [id]) := hnumbers.accept hunused
            exact ⟨hset.numbered, hset.clients, hset.known, hset.logged⟩
          · exact hnumbers.mono fun _ hclient => List.mem_append_left _ hclient
      | _ => cases haccepted

theorem numbers_start (interval : UInt64) : (start interval : World direct).Numbers [] := by
  refine ⟨fun _ => trivial, ?_, ?_, by simp [start, History.start]⟩
  · intro first second hfirst
    cases hfirst
  · intro handle hopen
    cases hopen

/-- The steps of the record-atomic crash model, within the formats' limits, by clients that have not
run out of seqs. -/
def Proceeds (world : World direct) (event : WorldEvent direct) : Prop :=
  world.Delivers History.Atomic event ∧ world.HasSeq event

instance (event : WorldEvent direct) : Decidable (world.Proceeds event) :=
  inferInstanceAs (Decidable (_ ∧ _))

theorem orders_run {interval : UInt64} {events : List (WorldEvent direct)}
    (hproceeds : Run.Guarded step Proceeds (start interval) events)
    (hclients : (events.filterMap acceptedClient).Nodup) :
    (Run.run step (start interval : World direct) events).Wired (fun _ => True)
      ∧ (Run.run step (start interval : World direct) events).Orders
      ∧ (Run.run step (start interval : World direct) events).Numbers
        (events.filterMap acceptedClient) := by
  induction events using List.reverseRecOn with
  | nil => exact ⟨wired_start direct interval, orders_start direct interval, numbers_start interval⟩
  | append_singleton before event ih =>
      obtain ⟨hbefore, hevent, -⟩ := (Run.guarded_append _).mp hproceeds
      rw [List.filterMap_append] at hclients
      obtain ⟨hold, -, hnew⟩ := List.nodup_append.mp hclients
      obtain ⟨hwired, horders, hnumbers⟩ := ih hbefore hold
      have hruns := runs_atomic (hbefore.mono (fun _ => True) (fun _ _ _ _ => trivial)
        (fun _ _ hproceeds _ => hproceeds.1) trivial)
      obtain ⟨inFlight, hobserved⟩ := hruns.observed
      have hcoherent := hruns.coherent
      rw [Run.run_append, Run.run_cons, Run.run_nil, List.filterMap_append]
      generalize Run.run step (start interval : World direct) before = world at *
      refine ⟨hwired.step (attends_of_true world event), ?_, ?_⟩
      · exact horders.step hwired hcoherent hobserved.state (hnumbers.fresh hwired hcoherent event)
      · have hsingle : [event].filterMap acceptedClient = (acceptedClient event).toList := by
          cases haccepted : acceptedClient event <;> simp [haccepted]
        rw [hsingle] at hnew ⊢
        refine hnumbers.step hwired hevent.2 fun client hclient hused => ?_
        exact hnew client hused client (by simpa using hclient) rfl

end World

/-- **Durable linearizability.** Clients with distinct ids, any interleaving, any crashes between
durable steps and any restarts, within the formats' limits: some order of the calls explains every
answer, keeps to real time, leaves out no call that returned, and is what a restart finds. -/
theorem durably_linearizable {interval : UInt64} {events : List (WorldEvent direct)}
    (hproceeds : Run.Guarded World.step World.Proceeds (World.start interval) events)
    (hclients : (events.filterMap World.acceptedClient).Nodup) :
    let world := Run.run World.step (World.start interval : World direct) events
    ∃ order, Linearizes KvStore.apply ⟨∅⟩ world.trace order
      ∧ (∀ engine ∈ world.history.engine, engine.state = final KvStore.apply ⟨∅⟩ order)
      ∧ ∀ next : UInt64,
        (startEngine world.history.disk next).state = final KvStore.apply ⟨∅⟩ order := by
  intro world
  obtain ⟨-, horders, -⟩ := World.orders_run hproceeds hclients
  have hruns := World.runs_atomic (hproceeds.mono (fun _ => True) (fun _ _ _ _ => trivial)
    (fun _ _ hproceeds _ => hproceeds.1) trivial)
  obtain ⟨inFlight, hobserved⟩ := hruns.observed
  have hfinal := World.final_taken horders hobserved.state
  refine ⟨world.taken, horders.linear, ?_, ?_⟩
  · intro engine hengine
    rw [hruns.coherent.live engine hengine, hfinal]
  · intro next
    rw [startEngine_eq_recover, recover_toCore, hruns.coherent.recovered, hfinal]

/-- Two clients at once; the process dies with the second's record written and its answer not
returned, and a third finds both. -/
def twoClients : List (WorldEvent direct) :=
  [.accept 0 1, .accept 1 2, .request 0 (.set "k" [65]), .request 1 (.incr "n" 1), .send 1, .send 0,
    .execute Faults.clean 0, .execute ⟨.crash 64, .none⟩ 0, .restart 8, .accept 0 3,
    .request 0 (.get "k"), .send 0, .execute Faults.clean 0, .receive 0, .reply 0]

theorem durably_linearizable_two_clients :
    let world := Run.run World.step (World.start 8 : World direct) twoClients
    world.trace = [.invoke 0 ⟨2, 1, .incr "n" 1⟩, .invoke 1 ⟨1, 1, .set "k" [65]⟩,
        .invoke 2 ⟨3, 1, .get "k"⟩, .respond 2 (.bytes (some [65]))]
      ∧ ∃ order, Linearizes KvStore.apply ⟨∅⟩ world.trace order
        ∧ (∀ engine ∈ world.history.engine, engine.state = final KvStore.apply ⟨∅⟩ order)
        ∧ ∀ next : UInt64,
          (startEngine world.history.disk next).state = final KvStore.apply ⟨∅⟩ order :=
  ⟨by decide +kernel, durably_linearizable (by decide +kernel) (by decide +kernel)⟩

/-! ### An op the log cannot hold -/

/-- A `SET` that returns, a crash, and a `GET` of the same key. -/
def setThenGet (key : String) : List (WorldEvent direct) :=
  [.accept 0 1, .request 0 (.set key []), .send 0, .execute Faults.clean 0, .receive 0, .reply 0,
      .crash, .restart 8]
    ++ [.accept 0 2, .request 0 (.get key), .send 0, .execute Faults.clean 0, .receive 0]

/-- A server that has just started on a directory it recovered nothing from. -/
def StartedEmpty (world : World direct) (trace : List (Action Op Output)) : Prop :=
  ∃ disk appended acked inFlight clock nextId taken replies,
    ∃ threads : Nat → Thread direct, world = {
      history := { disk, engine := some (Engine.recover Disk.empty 8), appended, acked, inFlight }
      running := true, clock, nextId, queue := []
      threads := fun handle => { threads handle with phase := .closed }
      calls := 1, trace, taken, replies }

theorem startedEmpty_longKey {size : Nat} (hsize : size = 2 ^ 16 - 1 + 1) :
    StartedEmpty (Run.run World.step (World.start 8)
      [.accept 0 1, .request 0 (.set (longKey size) []), .send 0, .execute Faults.clean 0,
        .receive 0, .reply 0, .crash, .restart 8])
      [.invoke 0 ⟨1, 1, .set (longKey size) []⟩, .respond 0 .ok] := by
  have hrecover := recover_longKey (S := KvStore) hsize 1 1 2 8
  rw [StartedEmpty, ← hrecover]
  exact ⟨_, _, _, _, _, _, _, _, _, rfl⟩

theorem StartedEmpty.get {world : World direct} {trace : List (Action Op Output)}
    (hstarted : StartedEmpty world trace) (key : String) :
    (Run.run World.step world [.accept 0 2, .request 0 (.get key), .send 0,
      .execute Faults.clean 0, .receive 0]).trace
        = trace ++ [.invoke 1 ⟨2, 1, .get key⟩] ++ [.respond 1 (.bytes none)] := by
  obtain ⟨disk, appended, acked, inFlight, clock, nextId, taken, replies, threads, rfl⟩ := hstarted
  have hempty : (∅ : BTreeMap String Bytes)[key]? = none := Std.ExtTreeMap.getElem?_empty
  rw [← hempty]
  rfl

/-- No order explains a `GET` that misses a `SET` which had returned. -/
theorem not_linearizes_lost_set (key : String) (order : List (Taken Op Output)) :
    ¬ Linearizes KvStore.apply ⟨∅⟩ [.invoke 0 ⟨1, 1, .set key []⟩, .respond 0 .ok,
      .invoke 1 ⟨2, 1, .get key⟩, .respond 1 (.bytes none)] order := by
  intro hlinear
  have hinvoked : ∀ taken ∈ order, taken.call = 0 ∧ taken.input = ⟨1, 1, .set key []⟩
      ∨ taken.call = 1 ∧ taken.input = ⟨2, 1, .get key⟩ := by
    intro taken htaken
    simpa using hlinear.invoked taken htaken
  obtain ⟨last, hlast, hcall, houtput⟩ := hlinear.completed 1 (.bytes none) (by simp)
  have hpair : [0, 1].Sublist (order.map Taken.call) := by
    refine hlinear.realTime 0 .ok 1 ⟨2, 1, .get key⟩ ?_ ?_
    · exact (List.sublist_append_right [_] [_, _]).trans (List.sublist_append_left [_, _, _] [_])
    · exact hcall ▸ List.mem_map_of_mem hlast
  have hsubset : order.map Taken.call ⊆ [0, 1] := by
    intro call hmem
    obtain ⟨taken, htaken, rfl⟩ := List.mem_map.mp hmem
    rcases hinvoked taken htaken with ⟨hzero, -⟩ | ⟨hone, -⟩ <;> simp [*]
  have hcalls : [0, 1] = order.map Taken.call :=
    hpair.eq_of_length_le (List.Nodup.subperm hlinear.nodup hsubset).length_le
  obtain ⟨first, tail, rfl, hfirst, htail⟩ := List.map_eq_cons_iff.mp hcalls.symm
  obtain ⟨second, rest, rfl, hsecond, hrest⟩ := List.map_eq_cons_iff.mp htail
  obtain rfl := List.map_eq_nil_iff.mp hrest
  have hset : first.input = ⟨1, 1, .set key []⟩ := by
    simpa [hfirst] using hinvoked first List.mem_cons_self
  have hget : second.input = ⟨2, 1, .get key⟩ := by
    simpa [hsecond] using hinvoked second (by simp)
  obtain rfl : last = second := by
    rcases List.mem_cons.mp hlast with rfl | hmem
    · rw [hfirst] at hcall
      cases hcall
    · exact List.mem_singleton.mp hmem
  have hlegal := hlinear.legal.2.1
  rw [hset, hget, houtput] at hlegal
  change Output.bytes none
    = .bytes (((∅ : BTreeMap String Bytes).insert key [])[key]?) at hlegal
  rw [Std.ExtTreeMap.getElem?_insert_self] at hlegal
  cases hlegal

theorem setThenGet_longKey {size : Nat} (hsize : size = 2 ^ 16 - 1 + 1) :
    ((setThenGet (longKey size)).filterMap World.acceptedClient).Nodup
      ∧ ∀ order, ¬ Linearizes KvStore.apply ⟨∅⟩
        (Run.run World.step (World.start 8 : World direct) (setThenGet (longKey size))).trace
        order := by
  refine ⟨(by decide : ([1, 2] : List UInt32).Nodup), fun order => ?_⟩
  rw [setThenGet, Run.run_append, (startedEmpty_longKey hsize).get]
  exact not_linearizes_lost_set (longKey size) order

/-- A completed `SET` of a key of `2^16` bytes is lost by a crash. -/
theorem completed_set_lost_by_crash :
    ((setThenGet (longKey (2 ^ 16))).filterMap World.acceptedClient).Nodup
      ∧ ∀ order, ¬ Linearizes KvStore.apply ⟨∅⟩
        (Run.run World.step (World.start 8 : World direct)
          (setThenGet (longKey (2 ^ 16)))).trace order :=
  setThenGet_longKey (by decide)

end OneBarrier
