import OneBarrier.Proof.Clients
import OneBarrier.Proof.Numbering
import OneBarrier.Proof.Ordering
import OneBarrier.Proof.Replies

/-!
# Connections and their identities

A server hands out connection ids from one above the highest client it recovered, so a connection
meets no mark of an earlier process, and no other connection of its own process has its id. Its ops
are numbered upwards, so each of them is above the mark the engine holds for the connection when the
executor takes it.
-/

namespace OneBarrier

open Wire Durable Utf8

variable {frontend : Frontend} (numbering : Numbering frontend)

/-- The number the connection had when the request came, and one more for every op of the request
that has been answered. -/
def Thread.issued (thread : Thread frontend) : Nat :=
  (numbering.seq thread.conn).toNat + thread.answers.length

/-- The highest number of the connection the engine can have seen. -/
def Thread.mark (thread : Thread frontend) : Nat :=
  match thread.phase with
  | .closed => 0
  | .idle => (numbering.seq thread.conn).toNat
  | .applying _ _ (some _) => thread.issued numbering + 1
  | _ => thread.issued numbering

/-- What is left of the request goes on with the next number, and the numbers have not run out. -/
structure Thread.Counts (thread : Thread frontend) : Prop where
  numbered : ∀ conv ∈ thread.phase.conv, conv.Numbered thread.client (numbering.seq thread.conn)
    (fun used turn => Leaves (numbering.seq thread.conn) used (numbering.seq turn.conn))
    thread.answers.length
  next : thread.phase.conv ≠ none → (numbering.seq thread.conn).toNat + 1 < 2 ^ 64
  issued : thread.phase.conv ≠ none → thread.issued numbering < 2 ^ 64
  called : ∀ op next answer, thread.phase = .applying op next answer →
    thread.issued numbering + 1 < 2 ^ 64

namespace World

/-- A connection gets the next id, and its requests take a number for each of their ops. -/
def Admits (world : World frontend) : WorldEvent frontend → Prop
  | .accept handle client =>
      world.running = true ∧ (world.threads handle).phase.isClosed = true
        ∧ client = world.nextId
  | .request _ request => numbering.admits request = true
  | _ => True

/-- The connection's next number does not wrap. -/
def SeqLeft (world : World frontend) : WorldEvent frontend → Prop
  | .request handle _ => (numbering.seq (world.threads handle).conn).toNat + 1 < 2 ^ 64
  | .send handle => ∀ op ∈ (world.threads handle).phase.sends,
      (world.threads handle).issued numbering + 1 < 2 ^ 64
  | _ => True

instance (world : World frontend) :
    (event : WorldEvent frontend) → Decidable (world.Admits numbering event)
  | .accept handle client => inferInstanceAs (Decidable (world.running = true
      ∧ (world.threads handle).phase.isClosed = true ∧ client = world.nextId))
  | .request _ request => inferInstanceAs (Decidable (numbering.admits request = true))
  | .disconnect _ | .send _ | .execute .. | .receive _ | .reply _ | .crash | .restart _ =>
      inferInstanceAs (Decidable True)

instance (world : World frontend) :
    (event : WorldEvent frontend) → Decidable (world.SeqLeft numbering event)
  | .request handle _ => inferInstanceAs (Decidable
      ((numbering.seq (world.threads handle).conn).toNat + 1 < 2 ^ 64))
  | .send handle => inferInstanceAs (Decidable (∀ op ∈ (world.threads handle).phase.sends,
      (world.threads handle).issued numbering + 1 < 2 ^ 64))
  | .accept .. | .disconnect _ | .execute .. | .receive _ | .reply _ | .crash | .restart _ =>
      inferInstanceAs (Decidable True)

end World

/-- The event hands out a connection id. -/
def WorldEvent.accepts : WorldEvent frontend → Bool
  | .accept _ _ => true
  | _ => false

namespace World

/-- Connections have ids of their own below the next one, `handed` at most, and so do the clients of
the engine; no mark is above its connection's numbers. -/
structure Identities (handed : Nat) (world : World frontend) : Prop where
  counts : ∀ handle, (world.threads handle).Counts numbering
  nextId : world.nextId.toNat ≤ handed + 1
  known : ∀ handle, (world.threads handle).phase.isClosed = false →
    (world.threads handle).client.toNat < world.nextId.toNat
  distinct : ∀ first second, (world.threads first).phase.isClosed = false →
    (world.threads second).phase.isClosed = false →
      (world.threads first).client = (world.threads second).client → first = second
  engine : ∀ engine ∈ world.history.engine,
    engine.toCore.ClientsIn (fun client => client.toNat < world.nextId.toNat)
  marks : ∀ engine ∈ world.history.engine, ∀ handle,
    (world.threads handle).phase.isClosed = false →
      (engine.highWater (world.threads handle).client).toNat ≤ (world.threads handle).mark numbering

end World

/-! ### Numbers -/

theorem toNat_add_ofNat {base : UInt64} {used : Nat} (hused : base.toNat + used < 2 ^ 64) :
    (base + UInt64.ofNat used).toNat = base.toNat + used := by
  rw [UInt64.toNat_add, UInt64.toNat_ofNat', Nat.mod_eq_of_lt (by omega : used < 2 ^ 64),
    Nat.mod_eq_of_lt hused]

section Counts

variable {numbering} {thread : Thread frontend}

theorem Thread.counts_of_conv_eq_none (hconv : thread.phase.conv = none) :
    thread.Counts numbering where
  numbered := fun conv hmem => by rw [hconv] at hmem; cases hmem
  next := fun hsome => absurd hconv hsome
  issued := fun hsome => absurd hconv hsome
  called := fun op next answer hphase => by rw [hphase] at hconv; cases hconv

/-- A thread that has the same left to do counts on as before. -/
theorem Thread.Counts.congr (hcounts : thread.Counts numbering) {next : Thread frontend}
    (hclient : next.client = thread.client) (hconn : next.conn = thread.conn)
    (hanswers : next.answers = thread.answers) (hconv : next.phase.conv = thread.phase.conv)
    (hcalled : ∀ op after answer, next.phase = .applying op after answer →
      thread.issued numbering + 1 < 2 ^ 64) : next.Counts numbering := by
  have hissued : next.issued numbering = thread.issued numbering := by
    rw [Thread.issued, Thread.issued, hconn, hanswers]
  refine ⟨?_, ?_, ?_, ?_⟩
  · rw [hconv, hclient, hconn, hanswers]
    exact hcounts.numbered
  · rw [hconv, hconn]
    exact hcounts.next
  · rw [hconv, hissued]
    exact hcounts.issued
  · rw [hissued]
    exact hcalled

/-- The op of a waiting thread has the connection's next number. -/
theorem Thread.Counts.op (hcounts : thread.Counts numbering) {op : Op}
    {next : Option Output → Conv (Turn frontend.Conn)} {answer : Option Output}
    (hphase : thread.phase = .applying op next answer) :
    op.client = thread.client ∧ op.seq.toNat = thread.issued numbering + 1 := by
  obtain ⟨hclient, hseq, -⟩ := hcounts.numbered (.apply op next) (by rw [hphase]; rfl)
  refine ⟨hclient, ?_⟩
  rw [hseq, toNat_add_ofNat (hcounts.called op next answer hphase)]
  rfl

theorem Thread.Counts.resume (hcounts : thread.Counts numbering) {op : Op}
    {next : Option Output → Conv (Turn frontend.Conn)}
    (hconv : thread.phase.conv = some (.apply op next))
    (hroom : thread.issued numbering + 1 < 2 ^ 64) (answer : Option Output) :
    (thread.resume op next answer).Counts numbering := by
  have hsome : thread.phase.conv ≠ none := by simp [hconv]
  have hissued : (thread.resume op next answer).issued numbering
      = thread.issued numbering + 1 := by
    rw [Thread.issued, Thread.resume, List.length_append]
    rfl
  refine ⟨?_, fun _ => hcounts.next hsome, fun _ => by rw [hissued]; exact hroom, ?_⟩
  · rintro conv ⟨⟩
    obtain ⟨-, -, hrest⟩ := hcounts.numbered (.apply op next) hconv
    have hlength : (thread.resume op next answer).answers.length = thread.answers.length + 1 := by
      rw [Thread.resume, List.length_append]
      rfl
    rw [hlength]
    exact hrest answer
  · intro op next answer hphase
    cases hphase

theorem Thread.Counts.counted (hcounts : thread.Counts numbering)
    {next : Option Nat → Conv (Turn frontend.Conn)} (hconv : thread.phase.conv = some (.len next))
    (count : Option Nat) :
    Thread.Counts numbering { thread with phase := .serving (next count) } := by
  have hsome : thread.phase.conv ≠ none := by simp [hconv]
  refine ⟨?_, fun _ => hcounts.next hsome, fun _ => hcounts.issued hsome, ?_⟩
  · rintro conv ⟨⟩
    exact hcounts.numbered (.len next) hconv count
  · intro op next answer hphase
    cases hphase

theorem Thread.mark_resume {op : Op} {next : Option Output → Conv (Turn frontend.Conn)}
    (answer : Option Output) :
    (thread.resume op next answer).mark numbering = thread.issued numbering + 1 := by
  change (thread.resume op next answer).issued numbering = _
  rw [Thread.issued, Thread.resume, List.length_append]
  rfl

end Counts

namespace World

variable {numbering} {world : World frontend} {handed : Nat}

/-! ### What keeps the identities -/

theorem Identities.congr {next : World frontend} (hids : world.Identities numbering handed)
    (hthreads : next.threads = world.threads) (hnextId : next.nextId = world.nextId)
    (hhistory : next.history = world.history) : next.Identities numbering handed := by
  obtain ⟨hcounts, hnext, hknown, hdistinct, hengine, hmarks⟩ := hids
  rw [← hhistory] at hengine hmarks
  rw [← hnextId] at hnext hknown hengine
  rw [← hthreads] at hcounts hknown hdistinct hmarks
  exact ⟨hcounts, hnext, hknown, hdistinct, hengine, hmarks⟩

/-- A thread goes on as the same connection, with no number taken back. -/
theorem Identities.set (hids : world.Identities numbering handed) {handle : Nat}
    {thread : Thread frontend} (hcounts : thread.Counts numbering)
    (hclient : thread.client = (world.threads handle).client)
    (hopen : (world.threads handle).phase.isClosed = false)
    (hmark : thread.phase.isClosed = false →
      (world.threads handle).mark numbering ≤ thread.mark numbering) :
    (world.set handle thread).Identities numbering handed := by
  have hsame : ∀ other, (Function.update world.threads handle thread other).client
      = (world.threads other).client := by
    intro other
    by_cases hother : other = handle
    · rw [hother, Function.update_self, hclient]
    · rw [Function.update_of_ne hother]
  have hopened : ∀ other,
      (Function.update world.threads handle thread other).phase.isClosed = false →
        (world.threads other).phase.isClosed = false := by
    intro other hphase
    by_cases hother : other = handle
    · rw [hother]
      exact hopen
    · rwa [Function.update_of_ne hother] at hphase
  refine ⟨?_, hids.nextId, ?_, ?_, hids.engine, ?_⟩
  · intro other
    simp only [World.set]
    by_cases hother : other = handle
    · rw [hother, Function.update_self]
      exact hcounts
    · rw [Function.update_of_ne hother]
      exact hids.counts other
  · intro other hother
    simp only [World.set, hsame]
    exact hids.known other (hopened other hother)
  · intro first second hfirst hsecond hclients
    simp only [World.set, hsame] at hclients
    exact hids.distinct first second (hopened first hfirst) (hopened second hsecond) hclients
  · intro engine hengine other hother
    have hold := hids.marks engine hengine other (hopened other hother)
    simp only [World.set, hsame] at hother ⊢
    by_cases hhandle : other = handle
    · subst hhandle
      rw [Function.update_self] at hother ⊢
      exact hold.trans (hmark hother)
    · rw [Function.update_of_ne hhandle]
      exact hold

theorem Identities.update (hids : world.Identities numbering handed) {next : World frontend}
    {handle : Nat} {thread : Thread frontend}
    (hthreads : next.threads = Function.update world.threads handle thread)
    (hnextId : next.nextId = world.nextId) (hhistory : next.history = world.history)
    (hcounts : thread.Counts numbering) (hclient : thread.client = (world.threads handle).client)
    (hopen : (world.threads handle).phase.isClosed = false)
    (hmark : thread.phase.isClosed = false →
      (world.threads handle).mark numbering ≤ thread.mark numbering) :
    next.Identities numbering handed :=
  (hids.set hcounts hclient hopen hmark).congr hthreads hnextId hhistory

/-- With every connection closed, the identities are those of the engine. -/
theorem Identities.closed {next : World frontend}
    (hclosed : ∀ handle, (next.threads handle).phase = .closed)
    (hnextId : next.nextId.toNat ≤ handed + 1)
    (hengine : ∀ engine ∈ next.history.engine,
      engine.toCore.ClientsIn (fun client => client.toNat < next.nextId.toNat)) :
    next.Identities numbering handed := by
  have hnone : ∀ handle, ¬ (next.threads handle).phase.isClosed = false := by
    intro handle hopen
    rw [hclosed handle] at hopen
    cases hopen
  refine ⟨?_, hnextId, fun handle hopen => absurd hopen (hnone handle),
    fun first _ hopen => absurd hopen (hnone first), hengine,
    fun _ _ handle hopen => absurd hopen (hnone handle)⟩
  exact fun handle => Thread.counts_of_conv_eq_none (by rw [hclosed handle]; rfl)

/-- A new connection takes the next id, which no mark and no other connection has. -/
theorem Identities.accept (hids : world.Identities numbering handed) {handle : Nat}
    (hroom : handed + 1 < 2 ^ 32 - 1) :
    { world.set handle { client := world.nextId, conn := frontend.init, phase := .idle } with
      nextId := world.nextId + 1 }.Identities numbering (handed + 1) := by
  have hnextId := hids.nextId
  have hnext : (world.nextId + 1).toNat = world.nextId.toNat + 1 := by
    rw [UInt32.toNat_add]
    exact Nat.mod_eq_of_lt (by change _ + 1 < _; omega)
  have hfree : ∀ other, (world.threads other).phase.isClosed = false →
      (world.threads other).client ≠ world.nextId := by
    intro other hother hsame
    have hknown := hids.known other hother
    rw [hsame] at hknown
    exact Nat.lt_irrefl _ hknown
  refine ⟨?_, by dsimp only; omega, ?_, ?_, ?_, ?_⟩
  · intro other
    simp only [World.set]
    by_cases hother : other = handle
    · rw [hother, Function.update_self]
      exact Thread.counts_of_conv_eq_none rfl
    · rw [Function.update_of_ne hother]
      exact hids.counts other
  · intro other hopen
    simp only [World.set] at hopen ⊢
    rw [hnext]
    by_cases hother : other = handle
    · rw [hother, Function.update_self]
      exact Nat.lt_succ_self _
    · rw [Function.update_of_ne hother] at hopen ⊢
      exact Nat.lt_succ_of_lt (hids.known other hopen)
  · intro first second hfirst hsecond hclients
    simp only [World.set] at hfirst hsecond hclients
    by_cases hone : first = handle
    · by_cases htwo : second = handle
      · exact hone.trans htwo.symm
      · rw [hone, Function.update_self, Function.update_of_ne htwo] at hclients
        rw [Function.update_of_ne htwo] at hsecond
        exact absurd hclients.symm (hfree second hsecond)
    · rw [Function.update_of_ne hone] at hfirst hclients
      by_cases htwo : second = handle
      · rw [htwo, Function.update_self] at hclients
        exact absurd hclients (hfree first hfirst)
      · rw [Function.update_of_ne htwo] at hsecond hclients
        exact hids.distinct first second hfirst hsecond hclients
  · intro engine hengine
    refine (hids.engine engine hengine).imp fun client hclient => ?_
    dsimp only
    omega
  · intro engine hengine other hopen
    simp only [World.set] at hopen ⊢
    by_cases hother : other = handle
    · rw [hother, Function.update_self]
      have hunmarked : world.nextId ∉ engine.applied := fun hmem =>
        Nat.lt_irrefl _ (hids.engine engine hengine _ hmem)
      rw [Core.highWater_of_not_mem hunmarked]
      exact Nat.zero_le _
    · rw [Function.update_of_ne hother] at hopen ⊢
      exact hids.marks engine hengine other hopen

/-- The op a waiting thread has in the queue is above its connection's mark. -/
theorem Identities.fresh_of_waiting (hids : world.Identities numbering handed)
    {engine : Engine KvStore} {handle : Nat} {op : Op}
    {next : Option Output → Conv (Turn frontend.Conn)}
    (hengine : world.history.engine = some engine)
    (hphase : (world.threads handle).phase = .applying op next none) :
    engine.highWater op.client < op.seq := by
  obtain ⟨hclient, hseq⟩ := (hids.counts handle).op hphase
  have hmark := hids.marks engine hengine handle (by rw [hphase]; rfl)
  rw [Thread.mark, hphase] at hmark
  rw [UInt64.lt_iff_toNat_lt, hclient, hseq]
  exact Nat.lt_succ_of_le hmark

theorem Identities.deliver (hids : world.Identities numbering handed) {engine : Engine KvStore}
    {faults : Faults} {ts clock : UInt64} {job : Job} {queue : List Job} {op : Op}
    {next : Option Output → Conv (Turn frontend.Conn)}
    (hengine : world.history.engine = some engine)
    (hphase : (world.threads job.handle).phase = .applying op next none) :
    (World.deliver { world with clock, queue } engine faults ts job op).Identities numbering
      handed := by
  have hfresh := hids.fresh_of_waiting hengine hphase
  have hall := threads_deliver { world with clock, queue } engine faults ts job op
  have hafter := @engine_deliver _ { world with clock, queue } engine faults ts job op hengine
  have hnextId := nextId_deliver { world with clock, queue } engine faults ts job op
  generalize World.deliver { world with clock, queue } engine faults ts job op = after
    at hall hafter hnextId ⊢
  dsimp only at hall hafter hnextId
  obtain ⟨hclient, hseq⟩ := (hids.counts job.handle).op hphase
  have hopen : (world.threads job.handle).phase.isClosed = false := by rw [hphase]; rfl
  have hknown := hids.known job.handle hopen
  have hnext := hids.nextId
  have hsame : ∀ other, (after.threads other).client = (world.threads other).client := by
    intro other
    obtain ⟨phase, logged, hother, -⟩ := hall other
    rw [hother]
  have hopened : ∀ other, (after.threads other).phase.isClosed = false →
      (world.threads other).phase.isClosed = false := by
    intro other hother
    obtain ⟨phase, logged, hthread, hcases⟩ := hall other
    rw [hthread] at hother
    rcases hcases with hclosed | ⟨hphases, -⟩ | ⟨hhandle, -⟩
    · rw [hclosed] at hother
      cases hother
    · rwa [hphases] at hother
    · rwa [hhandle]
  have hmarked : ∀ live ∈ after.history.engine, ∀ client, live.highWater client
      = if op.client = client then op.seq else engine.highWater client := by
    intro live hlive client
    rw [(hafter hlive).1, deliver_toCore, ← snd_applyDedup, Core.highWater_applyDedup client hfresh]
  refine ⟨?_, by rw [hnextId]; exact hnext, ?_, ?_, ?_, ?_⟩
  · intro other
    have hcounts := hids.counts other
    obtain ⟨phase, logged, hthread, hcases⟩ := hall other
    rw [hthread]
    rcases hcases with rfl | ⟨rfl, -⟩ | ⟨rfl, out, rfl, -⟩
    · exact Thread.counts_of_conv_eq_none rfl
    · exact ⟨hcounts.numbered, hcounts.next, hcounts.issued, hcounts.called⟩
    · refine hcounts.congr rfl rfl rfl (by rw [hphase]; rfl) fun _ _ _ _ => ?_
      exact hcounts.called op next none hphase
  · intro other hother
    rw [hsame, hnextId]
    exact hids.known other (hopened other hother)
  · intro first second hfirst hsecond hclients
    rw [hsame, hsame] at hclients
    exact hids.distinct first second (hopened first hfirst) (hopened second hsecond) hclients
  · intro live hlive
    rw [(hafter hlive).1, deliver_toCore, hnextId]
    refine (hids.engine engine hengine).deliver ?_
    change op.client.toNat < _
    rw [hclient]
    exact hknown
  · intro live hlive other hother
    have hold := hids.marks engine hengine other (hopened other hother)
    rw [hmarked live hlive, hsame]
    by_cases hhandle : other = job.handle
    · -- the op's own thread has its answer, or the engine is gone
      subst hhandle
      obtain ⟨phase, logged, hthread, hcases⟩ := hall job.handle
      rw [if_pos hclient, hthread]
      rcases hcases with rfl | ⟨-, hgone⟩ | ⟨-, out, rfl, -⟩
      · rw [hthread] at hother
        cases hother
      · rw [hgone rfl] at hlive
        cases hlive
      · rw [Thread.mark, hphase]
        exact hseq.le
    · have hother' : op.client ≠ (world.threads other).client := by
        intro hclients
        rw [hclient] at hclients
        exact hhandle (hids.distinct other job.handle (hopened other hother) hopen hclients.symm)
      rw [if_neg hother']
      obtain ⟨phase, logged, hthread, hcases⟩ := hall other
      rw [hthread]
      rcases hcases with rfl | ⟨rfl, -⟩ | ⟨heq, -⟩
      · rw [hthread] at hother
        cases hother
      · exact hold
      · exact absurd heq hhandle

theorem Identities.send (hids : world.Identities numbering handed) {handle : Nat}
    (hroom : ∀ op ∈ (world.threads handle).phase.sends,
      (world.threads handle).issued numbering + 1 < 2 ^ 64) :
    (world.send handle).Identities numbering handed := by
  have hcounts := hids.counts handle
  rw [World.send]
  dsimp only
  split
  · rename_i op next hphase
    have hopen : (world.threads handle).phase.isClosed = false := by rw [hphase]; rfl
    have hcall := hroom op (by rw [hphase]; rfl)
    have hconv : (world.threads handle).phase.conv = some (.apply op next) := by rw [hphase]; rfl
    have hmark : (world.threads handle).mark numbering
        = (world.threads handle).issued numbering := by rw [Thread.mark, hphase]
    split
    · have hcalling : Thread.Counts numbering { world.threads handle with
          phase := .applying op next none, call := world.calls } :=
        hcounts.congr rfl rfl rfl (by rw [hphase]; rfl) fun _ _ _ _ => hcall
      exact hids.update rfl rfl rfl hcalling rfl hopen fun _ => hmark.le
    · refine hids.set (hcounts.resume hconv hcall none) rfl hopen fun _ => ?_
      rw [hmark, Thread.mark_resume]
      exact Nat.le_succ _
  · rename_i next hphase
    have hopen : (world.threads handle).phase.isClosed = false := by rw [hphase]; rfl
    have hmark : (world.threads handle).mark numbering
        = (world.threads handle).issued numbering := by rw [Thread.mark, hphase]
    split
    · have hcounting : Thread.Counts numbering { world.threads handle with
          phase := .counting next none, call := world.calls } :=
        hcounts.congr rfl rfl rfl (by rw [hphase]; rfl) (by rintro _ _ _ ⟨⟩)
      exact hids.update rfl rfl rfl hcounting rfl hopen fun _ => hmark.le
    · exact hids.set (hcounts.counted (by rw [hphase]; rfl) none) rfl hopen fun _ => hmark.le
  · exact hids

theorem Identities.receive (hids : world.Identities numbering handed) (handle : Nat) :
    (world.receive handle).Identities numbering handed := by
  have hcounts := hids.counts handle
  rw [World.receive]
  dsimp only
  split
  · rename_i op next out hphase
    have hconv : (world.threads handle).phase.conv = some (.apply op next) := by rw [hphase]; rfl
    have hmark : (world.threads handle).mark numbering
        = (world.threads handle).issued numbering + 1 := by rw [Thread.mark, hphase]
    have hresumed := hcounts.resume hconv (hcounts.called op next _ hphase) (some out)
    refine hids.update rfl rfl rfl hresumed rfl (by rw [hphase]; rfl) fun _ => ?_
    rw [hmark, Thread.mark_resume]
  · rename_i op next hphase
    split
    · exact hids
    · have hconv : (world.threads handle).phase.conv = some (.apply op next) := by rw [hphase]; rfl
      have hmark : (world.threads handle).mark numbering
          = (world.threads handle).issued numbering := by rw [Thread.mark, hphase]
      have hresumed := hcounts.resume hconv (hcounts.called op next _ hphase) none
      refine hids.set hresumed rfl (by rw [hphase]; rfl) fun _ => ?_
      rw [hmark, Thread.mark_resume]
      exact Nat.le_succ _
  · rename_i next count hphase
    have hmark : (world.threads handle).mark numbering
        = (world.threads handle).issued numbering := by rw [Thread.mark, hphase]
    exact hids.set (hcounts.counted (by rw [hphase]; rfl) (some count)) rfl (by rw [hphase]; rfl)
      fun _ => hmark.le
  · rename_i next hphase
    split
    · exact hids
    · have hmark : (world.threads handle).mark numbering
          = (world.threads handle).issued numbering := by rw [Thread.mark, hphase]
      exact hids.set (hcounts.counted (by rw [hphase]; rfl) none) rfl (by rw [hphase]; rfl)
        fun _ => hmark.le
  · exact hids

theorem Identities.reply (hids : world.Identities numbering handed) (handle : Nat) :
    (world.reply handle).Identities numbering handed := by
  have hcounts := hids.counts handle
  rw [World.reply]
  dsimp only
  split
  · rename_i turn hphase
    have hsome : (world.threads handle).phase.conv ≠ none := by rw [hphase]; rintro ⟨⟩
    have hnumbered := hcounts.numbered (.ret turn) (by rw [hphase]; rfl)
    have hmark : (world.threads handle).mark numbering
        = (world.threads handle).issued numbering := by rw [Thread.mark, hphase]
    have hlater : (world.threads handle).issued numbering ≤ (numbering.seq turn.conn).toNat := by
      rcases hnumbered with hlast | ⟨hnone, hskipped⟩
      · rw [hlast, toNat_add_ofNat (hcounts.issued hsome)]
        rfl
      · have hone : numbering.seq turn.conn
            = numbering.seq (world.threads handle).conn + UInt64.ofNat 1 := hskipped
        rw [hone, toNat_add_ofNat (hcounts.next hsome), Thread.issued, hnone]
        exact Nat.le_succ _
    have hopen : (world.threads handle).phase.isClosed = false := by rw [hphase]; rfl
    refine hids.update rfl rfl rfl ?_ rfl hopen ?_
    · refine Thread.counts_of_conv_eq_none ?_
      dsimp only
      split <;> rfl
    · intro hopened
      dsimp only at hopened ⊢
      split at hopened
      · cases hopened
      · rename_i hkept
        rw [hmark, Thread.mark, if_neg hkept]
        exact hlater
  · exact hids

theorem Identities.answerLen (hids : world.Identities numbering handed) {handle : Nat}
    {next : Option Nat → Conv (Turn frontend.Conn)}
    (hphase : (world.threads handle).phase = .counting next none) (queue : List Job) (count : Nat) :
    { world.set handle { world.threads handle with
        phase := (world.threads handle).phase.answerLen count } with queue }.Identities numbering
      handed := by
  have hmark : (world.threads handle).mark numbering
      = (world.threads handle).issued numbering := by rw [Thread.mark, hphase]
  refine hids.update rfl rfl rfl ?_ rfl (by rw [hphase]; rfl) fun _ => ?_
  · refine (hids.counts handle).congr rfl rfl rfl ?_ ?_
    · rw [hphase]
      rfl
    · rw [hphase]
      rintro _ _ _ ⟨⟩
  · rw [hmark, Thread.mark, hphase]
    exact Nat.le_refl _

theorem Identities.execute (hids : world.Identities numbering handed) {mayFail : Op → Prop}
    (hwired : world.Wired mayFail) (faults : Faults) (tick : UInt64) :
    (world.execute faults tick).Identities numbering handed := by
  rw [World.execute]
  cases hengine : world.history.engine with
  | none => exact hids
  | some engine =>
      cases hqueue : world.queue with
      | nil => exact hids
      | cons job queue =>
          have hawaits := hwired.awaited job (by simp [hqueue])
          obtain ⟨handle, call, req⟩ := job
          cases req with
          | apply op =>
              obtain ⟨next, hphase⟩ := hawaits
              exact hids.deliver hengine hphase
          | len =>
              obtain ⟨next, hphase⟩ := hawaits
              exact hids.answerLen hphase queue _

/-- **The step lemma for identities.** -/
theorem Identities.step (hids : world.Identities numbering handed) {mayFail : Op → Prop}
    (hwired : world.Wired mayFail) {event : WorldEvent frontend}
    (hadmits : world.Admits numbering event) (hleft : world.SeqLeft numbering event)
    (hroom : handed + event.accepts.toNat < 2 ^ 32 - 1)
    (hrestart : ∀ interval, event = .restart interval →
      world.history.disk.ClientsIn KvStore (fun client => client.toNat ≤ handed)) :
    (world.step event).Identities numbering (handed + event.accepts.toNat) := by
  cases event with
  | accept handle client =>
      obtain ⟨hrunning, hclosed, rfl⟩ := hadmits
      rw [World.step, hrunning, Phase.eq_closed_of_isClosed hclosed]
      exact hids.accept hroom
  | disconnect handle =>
      rw [World.step]
      split
      · rename_i hphase
        exact hids.set (Thread.counts_of_conv_eq_none rfl) rfl (by rw [hphase]; rfl) (by rintro ⟨⟩)
      · exact hids
  | request handle request =>
      rw [World.step]
      split
      · rename_i hphase
        refine hids.set ⟨?_, fun _ => hleft, fun _ => ?_, by rintro _ _ _ ⟨⟩⟩ rfl (by rw [hphase]; rfl) ?_
        · rintro conv ⟨⟩
          exact numbering.serve _ _ request hadmits
        · exact UInt64.toNat_lt _
        · intro _
          rw [Thread.mark, hphase]
          exact Nat.le_refl _
      · exact hids
  | send handle => exact hids.send hleft
  | receive handle => exact hids.receive handle
  | reply handle => exact hids.reply handle
  | execute faults tick => exact hids.execute hwired faults tick
  | crash =>
      refine Identities.closed (fun _ => rfl) hids.nextId ?_
      intro engine hengine
      cases hengine
  | restart interval =>
      rw [World.step]
      split
      · exact hids
      · rename_i hstopped
        have hrecovered := (hrestart interval rfl).recovered
        have hclosed := (hwired.stopped (by simpa using hstopped)).2
        have hcore : (startEngine world.history.disk interval).toCore
            = world.history.disk.recovered KvStore := by
          rw [startEngine_eq_recover, recover_toCore]
        have hmax : (startEngine world.history.disk interval).maxClient.toNat ≤ handed := by
          rw [hcore]
          exact hrecovered.maxClient (Nat.zero_le handed)
        have hnext : ((startEngine world.history.disk interval).maxClient + 1).toNat
            = (startEngine world.history.disk interval).maxClient.toNat + 1 := by
          rw [UInt32.toNat_add]
          exact Nat.mod_eq_of_lt (by change _ + 1 < _; omega)
        refine Identities.closed hclosed ?_ ?_
        · dsimp only
          omega
        · rintro engine ⟨⟩ client hclient
          dsimp only
          rw [hnext]
          exact Nat.lt_succ_of_le (UInt32.le_iff_toNat_le.mp (Core.le_maxClient hclient))

/-- The directory's clients are the ones the server has had. -/
theorem Identities.clientsIn_step (hids : world.Identities numbering handed) {mayFail : Op → Prop}
    (hwired : world.Wired mayFail)
    (hdisk : world.history.disk.ClientsIn KvStore (fun client => client.toNat ≤ handed))
    {event : WorldEvent frontend}
    (hrecord : world.Delivers (fun _ event => event.RecordAtomic ∧ event.RecordFits) event) :
    (world.step event).history.disk.ClientsIn KvStore (fun client => client.toNat ≤ handed) := by
  cases event with
  | accept handle client =>
      rw [World.step]
      split <;> exact hdisk
  | disconnect handle =>
      rw [World.step]
      split <;> exact hdisk
  | request handle request =>
      rw [World.step]
      split <;> exact hdisk
  | send handle =>
      rw [World.step, history_send]
      exact hdisk
  | receive handle =>
      rw [World.step, history_receive]
      exact hdisk
  | reply handle =>
      rw [World.step, history_reply]
      exact hdisk
  | crash => exact hdisk
  | restart interval =>
      rw [World.step]
      split <;> exact hdisk
  | execute faults tick =>
      rw [World.step, World.execute]
      cases hengine : world.history.engine with
      | none => exact hdisk
      | some engine =>
          cases hqueue : world.queue with
          | nil => exact hdisk
          | cons job queue =>
              have hawaits := hwired.awaited job (by simp [hqueue])
              obtain ⟨handle, call, req⟩ := job
              cases req with
              | len => exact hdisk
              | apply op =>
                  obtain ⟨next, hphase⟩ := hawaits
                  have hpending : world.pending tick = some (max (world.clock + 1) tick, op) := by
                    rw [pending, hengine, hqueue]
                  have hdelivers := hrecord _ hpending
                  simp only [Event.RecordFits, Event.RecordAtomic] at hdelivers
                  have hnext := hids.nextId
                  have hknown := hids.known handle (by rw [hphase]; rfl)
                  have hclient := ((hids.counts handle).op hphase).1
                  have hdeliver := @disk_deliver _ { world with clock := world.clock + 1, queue } engine
                    faults (max (world.clock + 1) tick) ⟨handle, call, .apply op⟩ op hengine
                  dsimp only
                  rw [hdeliver]
                  refine hdisk.deliver ((hids.engine engine hengine).imp fun client hlt => ?_) ?_
                    hdelivers.2 hdelivers.1.1
                  · omega
                  · rw [hclient]
                    omega

theorem identities_start (interval : UInt64) :
    (start interval : World frontend).Identities numbering 0 := by
  have hempty : startEngine Disk.empty interval = Engine.create interval := rfl
  refine Identities.closed (fun _ => rfl) ?_ ?_
  · have hfirst : (Engine.create interval : Engine KvStore).maxClient + 1 = 1 := rfl
    rw [start, hempty]
    dsimp only
    rw [hfirst]
    decide
  · rintro engine ⟨⟩
    rw [hempty]
    exact Core.clientsIn_init

variable (numbering) in
/-- The events of a server that dies between durable steps only, and stays within the numbers and
the record lengths its formats hold. -/
def Assigns (world : World frontend) (event : WorldEvent frontend) : Prop :=
  world.Admits numbering event ∧ world.SeqLeft numbering event
    ∧ world.Delivers (fun _ event => event.RecordAtomic ∧ event.RecordFits) event

instance (event : WorldEvent frontend) : Decidable (world.Assigns numbering event) :=
  inferInstanceAs (Decidable (_ ∧ _ ∧ _))

/-- **The run lemma for identities.** -/
theorem identities_run {interval : UInt64} {events : List (WorldEvent frontend)}
    (hassigns : Run.Guarded step (Assigns numbering) (start interval) events)
    (hids : events.countP WorldEvent.accepts < 2 ^ 32 - 1) :
    (Run.run step (start interval : World frontend) events).Wired (fun _ => True)
      ∧ (Run.run step (start interval : World frontend) events).Identities numbering
        (events.countP WorldEvent.accepts)
      ∧ (Run.run step (start interval : World frontend) events).history.disk.ClientsIn KvStore
        (fun client => client.toNat ≤ events.countP WorldEvent.accepts) := by
  induction events using List.reverseRecOn with
  | nil => exact ⟨wired_start frontend interval, identities_start interval, Disk.clientsIn_empty⟩
  | append_singleton before event ih =>
      obtain ⟨hbefore, ⟨hadmits, hleft, hrecord⟩, -⟩ := (Run.guarded_append _).mp hassigns
      have hcount : (before ++ [event]).countP WorldEvent.accepts
          = before.countP WorldEvent.accepts + event.accepts.toNat := by
        rw [List.countP_append, List.countP_singleton]
        cases event.accepts <;> rfl
      rw [hcount] at hids ⊢
      obtain ⟨hwired, hidentities, hdisk⟩ := ih hbefore (by omega)
      rw [Run.run_append, Run.run_cons, Run.run_nil]
      refine ⟨hwired.step (attends_of_true _ event),
        hidentities.step hwired hadmits hleft hids fun _ _ => hdisk, ?_⟩
      exact (hidentities.clientsIn_step hwired hdisk hrecord).imp fun _ hclient =>
        Nat.le_add_right_of_le hclient

/-- The op the executor takes next is above its client's mark. -/
theorem Identities.fresh (hids : world.Identities numbering handed) {mayFail : Op → Prop}
    (hwired : world.Wired mayFail) {engine : Engine KvStore}
    (hengine : engine ∈ world.history.engine) {job : Job} (hjob : job ∈ world.queue) {op : Op}
    (hop : op ∈ job.req.op) : engine.highWater op.client < op.seq := by
  have hawaits := hwired.awaited job hjob
  obtain ⟨handle, call, req⟩ := job
  cases req with
  | len => cases hop
  | apply other =>
      obtain rfl : other = op := Option.some.inj hop
      obtain ⟨next, hphase⟩ := hawaits
      exact hids.fresh_of_waiting hengine hphase

end World

/-- **Fresh identities.** With any of the front-ends, any connections, interleaving, crashes between
durable steps and restarts: the op the executor takes is above the mark of its client, and is not
answered as a duplicate. -/
theorem ops_fresh (protocol : Protocol) {interval : UInt64}
    {events : List (WorldEvent protocol.frontend)}
    (hassigns : Run.Guarded World.step (World.Assigns protocol.numbering)
      (World.start interval) events)
    (hids : events.countP WorldEvent.accepts < 2 ^ 32 - 1) :
    let world := Run.run World.step (World.start interval : World protocol.frontend) events
    ∀ engine ∈ world.history.engine, ∀ job ∈ world.queue.head?, ∀ op ∈ job.req.op,
      engine.highWater op.client < op.seq
        ∧ ∀ faults ts, (engine.deliver faults world.history.disk ts op).1 ≠ .ok .suppressed := by
  intro world engine hengine job hjob op hop
  obtain ⟨hwired, hidentities, -⟩ := World.identities_run hassigns hids
  have hfresh := hidentities.fresh hwired hengine (List.mem_of_mem_head? hjob) hop
  refine ⟨hfresh, fun faults ts hsuppressed => ?_⟩
  rcases World.logs_of_deliver_ok hsuppressed with ⟨-, hseq⟩ | ⟨hne, -⟩
  · exact UInt64.not_le.mpr hfresh hseq
  · exact hne rfl

/-- The second connection logs nothing, so its id is handed out again after the crash. -/
def reusedId : List (WorldEvent memcache) :=
  [.accept 0 1, .accept 1 2, .request 0 ⟨[asBytes "set", [107], [48], [48], [49]], [65]⟩,
    .send 0, .execute Faults.clean 0, .crash, .restart 8, .accept 0 2,
    .request 0 ⟨[asBytes "get", [107]], []⟩, .send 0]

theorem assigns_reusedId :
    Run.Guarded World.step (World.Assigns Memcache.numbering) (World.start 8) reusedId := by
  decide +kernel

theorem ops_fresh_reusedId :
    let world := Run.run World.step (World.start 8 : World memcache) reusedId
    world.queue.map Job.req = [.apply ⟨2, 1, .get "k"⟩]
      ∧ ∀ engine ∈ world.history.engine, ∀ job ∈ world.queue.head?, ∀ op ∈ job.req.op,
        engine.highWater op.client < op.seq
          ∧ ∀ faults ts, (engine.deliver faults world.history.disk ts op).1 ≠ .ok .suppressed :=
  ⟨by decide +kernel, ops_fresh .memcache assigns_reusedId (by decide)⟩

/-! ### A value that is read back as records -/

/-- The highest client id there is, and the highest mark there is for the id that follows it. -/
def forged : Bytes :=
  encodeRecord 0 (Op.encode ⟨4294967295, 1, .get ""⟩)
    ++ encodeRecord 0 (Op.encode ⟨0, 18446744073709551615, .get ""⟩)

/-- A value whose last bytes are two log records. -/
def forgedValue (size : Nat) : Bytes := List.replicate size 0 ++ forged

def forgedRecords : List Record :=
  [(0, ⟨4294967295, 1, .get ""⟩), (0, ⟨0, 18446744073709551615, .get ""⟩)]

theorem split_forged : split forged
    = ([(0, Op.encode ⟨4294967295, 1, .get ""⟩),
        (0, Op.encode ⟨0, 18446744073709551615, .get ""⟩)], []) := by
  decide +kernel

/-- What is in front of the value in a `SET` of the empty key, and the part of the value the record's
length field covers. -/
def forgedFront (size : Nat) : Bytes :=
  [0] ++ (leBytes 4 (1 : UInt32).toNat ++ (leBytes 8 (1 : UInt64).toNat ++ (leBytes 2 0
    ++ (leBytes 4 (2 ^ 32 - 1) ++ List.replicate size 0))))

theorem encode_forgedValue {size : Nat} (hsize : size + 20 = 2 ^ 32) :
    Op.encode ⟨1, 1, .set "" (forgedValue size)⟩ = forgedFront size ++ forged := by
  have hforged : forged.length = 54 := by decide +kernel
  have hfield : lengthBytes 4 (List.replicate size 0 ++ forged).length = leBytes 4 (2 ^ 32 - 1) := by
    have hlong : 256 ^ 4 - 1 ≤ (List.replicate size 0 ++ forged).length := by
      rw [List.length_append, List.length_replicate, hforged]
      omega
    rw [lengthBytes, Nat.min_eq_right hlong]
    rfl
  have hkey : asBytes "" = [] := by decide
  simp only [Op.encode, Op.tag, Op.key, Op.encodeBody, hkey, forgedFront, forgedValue, hfield,
    List.append_assoc, List.nil_append]
  rfl

theorem decode_forgedFront {size : Nat} (hsize : size + 20 = 2 ^ 32) :
    Op.decode (forgedFront size) = none := by
  have hvalue : readValue (leBytes 4 (2 ^ 32 - 1) ++ List.replicate size 0) = none := by
    have hnumber : (UInt32.ofNat (2 ^ 32 - 1)).toNat = 2 ^ 32 - 1 := by decide
    rw [readValue, (u32_exact_ofNat (by decide : 2 ^ 32 - 1 < 2 ^ 32)).run_bind, bytes, if_neg]
    rw [hnumber, List.length_replicate]
    omega
  have hkey : Exact readKey (leBytes 2 0) "" := by
    have hexact := @readKey_exact "" (by decide)
    exact hexact
  rw [Op.decode, forgedFront, readOp, (u8_exact 0).run_bind, (u32_exact 1).run_bind,
    (u64_exact 1).run_bind, hkey.run_bind]
  generalize leBytes 4 (2 ^ 32 - 1) ++ List.replicate size 0 = input at hvalue
  have hkind : readKind 0 "" input = none := by
    change (readValue input).bind _ = none
    rw [hvalue, Option.bind_none]
  have hop : (readKind 0 "" >>= fun kind => (pure { client := 1, seq := 1, kind } : Reader Op)) input
      = none := by
    change (readKind 0 "" input).bind _ = none
    rw [hkind, Option.bind_none]
  rw [hop, Option.map_none]

theorem recover_forged {size : Nat} (hsize : size + 20 = 2 ^ 32) (interval : UInt64) :
    (startEngine { oplog := some (encodeRecord 2 (Op.encode ⟨1, 1, .set "" (forgedValue size)⟩))
                   snapshot := none } interval).toCore = serial KvStore forgedRecords := by
  have hlength : (forgedFront size).length = 2 ^ 32 - 1 := by
    simp only [forgedFront, List.length_append, length_leBytes, List.length_replicate,
      List.length_singleton]
    omega
  have hread : readLog { oplog := some (encodeRecord 2
        (Op.encode ⟨1, 1, .set "" (forgedValue size)⟩)), snapshot := none }
      = (2, forgedFront size) :: (split forged).1 := by
    rw [encode_forgedValue hsize]
    exact congrArg Prod.fst (split_encodeRecord_of_long hlength)
  rw [split_forged] at hread
  rw [startEngine_eq_recover, recover_toCore, Disk.recovered, Disk.store, Disk.records, hread,
    List.filterMap_cons, decode_forgedFront hsize]
  rfl

/-- A connection stores such a value, the process dies, and the first connection of the next process
asks for a key. -/
def forgedRun (size : Nat) : List (WorldEvent resp) :=
  [.accept 0 1, .request 0 [asBytes "SET", [], forgedValue size], .send 0,
      .execute Faults.clean 0, .crash]
    ++ [.restart 8, .accept 0 0, .request 0 [asBytes "GET", []], .send 0]

/-- A process that starts with the highest client id gives the first connection the id `0`. -/
theorem suppressed_of_highest_client {world : World resp} (hstopped : world.running = false)
    (hclosed : (world.threads 0).phase = .closed) {core : Core KvStore}
    (hcore : (startEngine world.history.disk 8).toCore = core) (hnextId : core.maxClient + 1 = 0)
    (hmark : core.highWater 0 = 18446744073709551615) :
    let events : List (WorldEvent resp) :=
      [.restart 8, .accept 0 0, .request 0 [asBytes "GET", []], .send 0]
    let after := Run.run World.step world events
    Run.Guarded World.step (fun world event => world.Admits Resp.numbering event
        ∧ world.Delivers (fun _ event => event.RecordAtomic) event) world events
      ∧ ∃ engine ∈ after.history.engine, ∃ job ∈ after.queue.head?, ∃ op ∈ job.req.op,
        ∀ faults ts, (engine.deliver faults after.history.disk ts op).1 = .ok .suppressed := by
  intro events after
  obtain ⟨history, running, clock, nextId, queue, threads, calls, trace, taken, replies⟩ := world
  obtain rfl : running = false := hstopped
  dsimp only at hclosed hcore
  have hnext : (startEngine history.disk 8).maxClient + 1 = 0 := by rw [hcore]; exact hnextId
  have hlow : ¬ (dedup KvStore).fresh (startEngine history.disk 8).toCore
      (0, ⟨0, 1, .get (fromUtf8Lossy [])⟩) := by
    rw [hcore]
    change ¬ core.highWater 0 < 1
    rw [hmark]
    decide
  -- the two steps that look at what was recovered
  have hrestart : World.step (⟨history, false, clock, nextId, queue, threads, calls, trace, taken,
        replies⟩ : World resp) (.restart 8)
      = ⟨{ history with engine := some (startEngine history.disk 8) }, true,
        (startEngine history.disk 8).lastTs + 1, 0, [], threads, calls, trace, taken, replies⟩ := by
    rw [← hnext]
    rfl
  have haccept : World.step (⟨{ history with engine := some (startEngine history.disk 8) }, true,
        (startEngine history.disk 8).lastTs + 1, 0, [], threads, calls, trace, taken,
        replies⟩ : World resp) (.accept 0 0)
      = ⟨{ history with engine := some (startEngine history.disk 8) }, true,
        (startEngine history.disk 8).lastTs + 1, 1, [],
        Function.update threads 0 { client := 0, conn := (0 : UInt64), phase := .idle }, calls, trace,
        taken, replies⟩ := by
    rw [World.step, hclosed]
    rfl
  have hafter : after = Run.run World.step (⟨{ history with
        engine := some (startEngine history.disk 8) }, true, (startEngine history.disk 8).lastTs + 1,
        1, [], Function.update threads 0 { client := 0, conn := (0 : UInt64), phase := .idle }, calls,
        trace, taken, replies⟩ : World resp) [.request 0 [asBytes "GET", []], .send 0] := by
    simp only [after, events, Run.run_cons]
    rw [hrestart, haccept]
  refine ⟨⟨⟨trivial, trivial⟩, ?_⟩, ?_⟩
  · rw [hrestart]
    refine ⟨⟨⟨rfl, ?_, rfl⟩, trivial⟩, ?_⟩
    · rw [hclosed]
      rfl
    · rw [haccept]
      exact ⟨⟨rfl, trivial⟩, ⟨trivial, trivial⟩, trivial⟩
  · rw [hafter]
    refine ⟨_, rfl, _, rfl, _, rfl, fun faults ts => ?_⟩
    rw [deliver_of_not_fresh ?_]
    exact hlow

theorem forged_value_suppresses_of_size {size : Nat} (hsize : size + 20 = 2 ^ 32) :
    let after := Run.run World.step (World.start 8 : World resp) (forgedRun size)
    Run.Guarded World.step (fun world event => world.Admits Resp.numbering event
        ∧ world.Delivers (fun _ event => event.RecordAtomic) event) (World.start 8 : World resp)
        (forgedRun size)
      ∧ (forgedRun size).countP WorldEvent.accepts < 2 ^ 32 - 1
      ∧ ∃ engine ∈ after.history.engine, ∃ job ∈ after.queue.head?, ∃ op ∈ job.req.op,
        ∀ faults ts, (engine.deliver faults after.history.disk ts op).1 = .ok .suppressed := by
  intro after
  have hcore := recover_forged hsize 8
  have hlater := @suppressed_of_highest_client (Run.run World.step (World.start 8 : World resp)
    [.accept 0 1, .request 0 [asBytes "SET", [], forgedValue size], .send 0,
      .execute Faults.clean 0, .crash]) rfl rfl (serial KvStore forgedRecords) hcore
    (by decide +kernel) (by decide +kernel)
  obtain ⟨hguarded, hsuppressed⟩ := hlater
  refine ⟨?_, (by decide : 2 < 2 ^ 32 - 1), ?_⟩
  · rw [forgedRun, Run.guarded_append]
    refine ⟨⟨⟨⟨rfl, rfl, rfl⟩, trivial⟩, ⟨rfl, trivial⟩, ⟨trivial, trivial⟩, ⟨trivial, ?_⟩,
      ⟨trivial, trivial⟩, trivial⟩, hguarded⟩
    rintro record ⟨⟩
    exact ⟨trivial, by decide⟩
  · simp only [after, forgedRun, Run.run_append]
    exact hsuppressed

/-- A value of `2^32 + 34` bytes ends in two records of its sender's making. Read back after a crash,
they leave the next connection an id whose mark no op is above. -/
theorem forged_value_suppresses :
    let after := Run.run World.step (World.start 8 : World resp) (forgedRun (2 ^ 32 - 20))
    Run.Guarded World.step (fun world event => world.Admits Resp.numbering event
        ∧ world.Delivers (fun _ event => event.RecordAtomic) event) (World.start 8 : World resp)
        (forgedRun (2 ^ 32 - 20))
      ∧ (forgedRun (2 ^ 32 - 20)).countP WorldEvent.accepts < 2 ^ 32 - 1
      ∧ ∃ engine ∈ after.history.engine, ∃ job ∈ after.queue.head?, ∃ op ∈ job.req.op,
        ∀ faults ts, (engine.deliver faults after.history.disk ts op).1 = .ok .suppressed :=
  forged_value_suppresses_of_size (by decide)

end OneBarrier
