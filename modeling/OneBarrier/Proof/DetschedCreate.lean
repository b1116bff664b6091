import OneBarrier.Proof.Detsched
import Mathlib.Logic.Relation

/-!
# Threads that create threads

A new thread starts with clock zero, below every thread that has been through the gate. If nobody
who still has a lock to take has been, while somebody is about to create a thread, then a creation
and an acquisition can be swapped: all runs make the same acquisitions in the same order, and differ
at most in how far the creations have come.
-/

namespace OneBarrier.Detsched

open Run

/-! ### Slots and scripts -/

/-- The thread has fetched a slot that is not active yet. -/
def Pc.allocates : Pc → Option Nat
  | storeLc slot | storeActive slot => some slot
  | _ => none

theorem Pc.allocates_eq_none {pc : Pc} (hnew : pc.new = none) : pc.allocates = none := by
  cases pc <;> first | rfl | cases hnew

/-- How a slot, its thread and its acquisitions fit together, given how many slots are registered and
how many have been fetched. -/
structure Seat (registered nextSlot slot lc count : Nat) (active : Bool) (thread : Thread) : Prop where
  beyond : registered ≤ slot → active = false ∧ lc = 0 ∧ thread = {}
  awake : slot < registered → thread.pc = .exited ∨ active = true
  gone : thread.pc = .exited → thread.script = []
  atGate : thread.pc.AtGate → thread.depth = 0
    ∧ ∃ lock shared rest, thread.script = .lock lock shared :: rest
  count : count = lc + if thread.pc = .held then 1 else 0
  allocates : ∀ new ∈ thread.pc.allocates, new = registered ∧ nextSlot = registered + 1
    ∧ ∃ body rest, thread.script = .create body :: rest

namespace Seat

variable {registered nextSlot slot lc count : Nat} {active : Bool} {thread : Thread}

theorem of_lt (hlt : slot < registered) (hawake : thread.pc = .exited ∨ active = true)
    (hgone : thread.pc = .exited → thread.script = [])
    (hgate : thread.pc.AtGate → thread.depth = 0
      ∧ ∃ lock shared rest, thread.script = .lock lock shared :: rest)
    (hcount : count = lc + if thread.pc = .held then 1 else 0)
    (hallocates : ∀ new ∈ thread.pc.allocates, new = registered ∧ nextSlot = registered + 1
      ∧ ∃ body rest, thread.script = .create body :: rest) :
    Seat registered nextSlot slot lc count active thread :=
  ⟨fun hle => absurd hlt (Nat.not_lt.mpr hle), fun _ => hawake, hgone, hgate, hcount, hallocates⟩

theorem count_eq (hseat : Seat registered nextSlot slot lc count active thread)
    (hpc : thread.pc ≠ .held) : count = lc := by
  rw [hseat.count, if_neg hpc, Nat.add_zero]

/-- Who allocates nothing does not see the slots move. -/
theorem of_not_allocates (hseat : Seat registered nextSlot slot lc count active thread)
    (hnone : thread.pc.allocates = none) {registered' nextSlot' : Nat}
    (hbeyond : registered' ≤ slot → registered ≤ slot)
    (hbelow : slot < registered' → slot < registered) :
    Seat registered' nextSlot' slot lc count active thread := by
  refine ⟨fun hle => hseat.beyond (hbeyond hle), fun hlt => hseat.awake (hbelow hlt), hseat.gone,
    hseat.atGate, hseat.count, ?_⟩
  rw [hnone]
  exact fun new hnew => absurd hnew (Option.not_mem_none new)

end Seat

/-- Every slot is in order, and at most one is being allocated. -/
structure Tidy (state : Sched) : Prop where
  seat : ∀ slot, Seat state.registered state.nextSlot slot (state.lc slot)
    (countOf state.acquired slot) (state.active slot) (state.threads slot)
  settled : (∀ slot, (state.threads slot).pc.allocates = none) → state.nextSlot = state.registered
  spawns : ∀ slot new, (state.threads slot).pc = .spawn new →
    new < state.registered ∧ (state.threads new).pc = .unborn
      ∧ ∀ other, (state.threads other).pc = .spawn new → other = slot

namespace Tidy

variable {program : Program} {state next : Sched} {slot : Nat}

theorem registered_le (htidy : Tidy state) : state.registered ≤ state.nextSlot := by
  by_cases hsettled : ∀ slot, (state.threads slot).pc.allocates = none
  · exact Nat.le_of_eq (htidy.settled hsettled).symm
  · push Not at hsettled
    obtain ⟨slot, hslot⟩ := hsettled
    obtain ⟨new, hnew⟩ := Option.ne_none_iff_exists'.mp hslot
    rw [((htidy.seat slot).allocates new hnew).2.1]
    exact Nat.le_succ _

/-- Whoever is somewhere in its script is registered. -/
theorem lt_registered (htidy : Tidy state) (hpc : (state.threads slot).pc ≠ .unborn) :
    slot < state.registered := by
  by_contra hge
  rw [((htidy.seat slot).beyond (Nat.not_lt.mp hge)).2.2] at hpc
  exact hpc rfl

theorem left_beyond (htidy : Tidy state) (hge : state.registered ≤ slot) : state.left slot = [] := by
  rw [Sched.left, ((htidy.seat slot).beyond hge).2.2]
  rfl

theorem lt_of_left (htidy : Tidy state) (hleft : state.left slot ≠ []) : slot < state.registered := by
  by_contra hge
  exact hleft (htidy.left_beyond (Nat.not_lt.mp hge))

end Tidy

theorem gated_create (depth body : Nat) (rest : List Act) :
    gated depth (.create body :: rest) = .create body :: gated depth rest := by
  cases depth <;> rfl

theorem Sched.creating_of_script {state : Sched} {slot body : Nat} {rest : List Act}
    (hscript : (state.threads slot).script = .create body :: rest) : state.Creating slot := by
  refine ⟨.create body, ?_, rfl⟩
  rw [Sched.left, hscript, gated_create]
  rfl

theorem Sched.Creating.left_ne_nil {state : Sched} {slot : Nat} (hcreating : state.Creating slot) :
    state.left slot ≠ [] := by
  obtain ⟨act, hhead, -⟩ := hcreating
  rintro hnil
  rw [hnil] at hhead
  cases hhead

namespace Tidy

variable {program : Program} {state next : Sched} {slot : Nat}

/-- Two threads are not both about to create. -/
theorem creating_unique (htidy : Tidy state) (horderly : state.Orderly) {other : Nat}
    (hslot : state.Creating slot) (hother : state.Creating other) : other = slot := by
  by_contra hne
  exact (horderly slot (htidy.lt_of_left hslot.left_ne_nil) hslot other
    (htidy.lt_of_left hother.left_ne_nil) hne).1 hother

theorem not_allocates (htidy : Tidy state) (horderly : state.Orderly) (hslot : state.Creating slot)
    {other : Nat} (hne : other ≠ slot) : (state.threads other).pc.allocates = none := by
  by_contra hsome
  obtain ⟨new, hnew⟩ := Option.ne_none_iff_exists'.mp hsome
  obtain ⟨-, -, body, rest, hscript⟩ := (htidy.seat other).allocates new hnew
  exact hne (htidy.creating_unique horderly hslot (Sched.creating_of_script hscript))

/-- Who stands at the gate has a lock left. -/
theorem left_of_atGate (htidy : Tidy state) (hgate : (state.threads slot).pc.AtGate) :
    ∃ lock shared rest, (state.threads slot).script = .lock lock shared :: rest
      ∧ state.left slot = .lock lock shared :: gated 1 rest := by
  obtain ⟨hdepth, lock, shared, rest, hscript⟩ := (htidy.seat slot).atGate hgate
  refine ⟨lock, shared, rest, hscript, ?_⟩
  rw [Sched.left, hdepth, hscript]
  rfl

theorem locking (htidy : Tidy state) (hgate : (state.threads slot).pc.AtGate) :
    state.Locking slot := by
  obtain ⟨lock, shared, rest, -, hleft⟩ := htidy.left_of_atGate hgate
  refine ⟨.lock lock shared, ?_, rfl⟩
  rw [hleft]
  exact List.mem_cons_self

/-- Who has something left has not left, and is active. -/
theorem active_of_locking (htidy : Tidy state) (hlocking : state.Locking slot) :
    state.active slot = true := by
  obtain ⟨act, hmem, -⟩ := hlocking
  refine ((htidy.seat slot).awake (htidy.lt_of_left (List.ne_nil_of_mem hmem))).resolve_left ?_
  intro hexited
  rw [Sched.left, (htidy.seat slot).gone hexited] at hmem
  cases hmem

/-- Nobody is starting a thread that runs already. -/
theorem not_spawn (htidy : Tidy state) (hpc : (state.threads slot).pc ≠ .unborn) (other : Nat) :
    (state.threads other).pc ≠ .spawn slot := fun hspawn =>
  hpc (htidy.spawns other slot hspawn).2.1

/-- A step that changes the record of one thread, and neither fetches nor registers. -/
theorem set (htidy : Tidy state) {thread : Thread} {lc : Nat → Nat} {active : Nat → Bool}
    {holders : Nat → List (Nat × Bool)} {acquired : List (Nat × Nat)}
    (hfree : ∀ other, (state.threads other).pc ≠ .spawn slot)
    (hallocates : thread.pc.allocates = none → (state.threads slot).pc.allocates = none)
    (hspawn : ∀ new, thread.pc ≠ .spawn new)
    (hothers : ∀ other, other ≠ slot → lc other = state.lc other ∧ active other = state.active other
      ∧ countOf acquired other = countOf state.acquired other)
    (hseat : Seat state.registered state.nextSlot slot (lc slot) (countOf acquired slot)
      (active slot) thread) :
    Tidy { state.set slot thread with lc, active, holders, acquired } := by
  refine ⟨?_, ?_, ?_⟩
  · intro other
    by_cases heq : other = slot
    · subst heq
      simp only [Sched.threads_set_self]
      exact hseat
    · obtain ⟨hlc, hactive, hcount⟩ := hothers other heq
      simp only [Sched.threads_set_of_ne heq, hlc, hactive, hcount]
      exact htidy.seat other
  · intro hnone
    refine htidy.settled fun other => ?_
    have hother := hnone other
    by_cases heq : other = slot
    · subst heq
      simp only [Sched.threads_set_self] at hother
      exact hallocates hother
    · simp only [Sched.threads_set_of_ne heq] at hother
      exact hother
  · have hold : ∀ other new, ((state.set slot thread).threads other).pc = .spawn new →
        (state.threads other).pc = .spawn new := by
      intro other new hpc
      have hne : other ≠ slot := by
        rintro rfl
        rw [Sched.threads_set_self] at hpc
        exact hspawn new hpc
      rwa [Sched.threads_set_of_ne hne] at hpc
    intro first new hfirst
    obtain ⟨hlt, hunborn, hunique⟩ := htidy.spawns first new (hold first new hfirst)
    have hne : new ≠ slot := by
      rintro rfl
      exact hfree first (hold first new hfirst)
    refine ⟨hlt, ?_, fun other hother => hunique other (hold other new hother)⟩
    simp only [Sched.threads_set_of_ne hne]
    exact hunborn

/-- The next slot is fetched: nobody else holds one that is not active. -/
theorem fetch (htidy : Tidy state) (horderly : state.Orderly) {body : Nat} {rest : List Act}
    (hpc : (state.threads slot).pc = .run)
    (hscript : (state.threads slot).script = .create body :: rest) :
    Tidy { state.set slot { state.threads slot with pc := .storeLc state.nextSlot } with
      nextSlot := state.nextSlot + 1 } := by
  have hothers : ∀ other, other ≠ slot → (state.threads other).pc.allocates = none := fun other hne =>
    htidy.not_allocates horderly (Sched.creating_of_script hscript) hne
  have hnext : state.nextSlot = state.registered := by
    refine htidy.settled fun other => ?_
    by_cases heq : other = slot
    · rw [heq, hpc]
      rfl
    · exact hothers other heq
  have hlt := htidy.lt_registered (by rw [hpc]; decide : (state.threads slot).pc ≠ .unborn)
  have hseat := htidy.seat slot
  refine ⟨?_, ?_, ?_⟩
  · intro other
    by_cases heq : other = slot
    · subst heq
      simp only [Sched.threads_set_self]
      refine .of_lt hlt (hseat.awake hlt |>.imp_left fun hexited => ?_) (fun hpc' => by cases hpc')
        (fun hgate => hgate.elim) ?_ ?_
      · rw [hpc] at hexited
        cases hexited
      · exact hseat.count_eq (by rw [hpc]; decide)
      · rintro new hnew
        cases hnew
        exact ⟨hnext, congrArg (· + 1) hnext, body, rest, hscript⟩
    · simp only [Sched.threads_set_of_ne heq]
      exact (htidy.seat other).of_not_allocates (hothers other heq) id (fun hlt => hlt)
  · intro hnone
    have hself := hnone slot
    simp only [Sched.threads_set_self] at hself
    cases hself
  · have hold : ∀ other new,
        ((state.set slot { state.threads slot with pc := .storeLc state.nextSlot }).threads other).pc
          = .spawn new → (state.threads other).pc = .spawn new := by
      intro other new hspawn
      by_cases heq : other = slot
      · subst heq
        rw [Sched.threads_set_self] at hspawn
        cases hspawn
      · rwa [Sched.threads_set_of_ne heq] at hspawn
    intro first new hfirst
    obtain ⟨hreg, hunborn, hunique⟩ := htidy.spawns first new (hold first new hfirst)
    refine ⟨hreg, ?_, fun other hother => hunique other (hold other new hother)⟩
    have hne : new ≠ slot := by
      rintro rfl
      rw [hpc] at hunborn
      cases hunborn
    simp only [Sched.threads_set_of_ne hne]
    exact hunborn

/-- The slot becomes active, with its thread not yet started. -/
theorem register (htidy : Tidy state) (horderly : state.Orderly) {new body : Nat} {rest : List Act}
    (hpc : (state.threads slot).pc = .storeActive new)
    (hscript : (state.threads slot).script = .create body :: rest) :
    Tidy { (state.set slot { state.threads slot with pc := .spawn new, script := rest }).set new
        { script := program.body body } with
      active := Function.update state.active new true
      registered := state.registered + 1 } := by
  obtain ⟨hnew, hnext, -⟩ := (htidy.seat slot).allocates new (by rw [hpc]; rfl)
  obtain ⟨-, hlc, hthread⟩ := (htidy.seat new).beyond (Nat.le_of_eq hnew.symm)
  have hlt := htidy.lt_registered (by rw [hpc]; simp : (state.threads slot).pc ≠ .unborn)
  have hne : new ≠ slot := by omega
  have hcount := (htidy.seat new).count_eq (by rw [hthread]; decide)
  have hthreads : ∀ other, other ≠ slot → other ≠ new →
      ((state.set slot { state.threads slot with pc := .spawn new, script := rest }).set new
        { script := program.body body }).threads other = state.threads other := by
    intro other hother hother'
    rw [Sched.threads_set_of_ne hother', Sched.threads_set_of_ne hother]
  have hslot : ((state.set slot { state.threads slot with pc := .spawn new, script := rest }).set new
      { script := program.body body }).threads slot
        = { state.threads slot with pc := .spawn new, script := rest } := by
    rw [Sched.threads_set_of_ne (Ne.symm hne), Sched.threads_set_self]
  refine ⟨?_, fun _ => hnext, ?_⟩
  · intro other
    by_cases heq : other = new
    · subst heq
      simp only [Sched.threads_set_self, Function.update_self]
      exact .of_lt (by omega) (.inr rfl) (fun hpc' => by cases hpc') (fun hgate => hgate.elim)
        hcount (fun _ hmem => by cases hmem)
    by_cases heq' : other = slot
    · subst heq'
      simp only [hslot, Function.update_of_ne heq]
      have hseat := htidy.seat other
      refine .of_lt (by omega) (.inr ?_) (fun hpc' => by cases hpc') (fun hgate => hgate.elim)
        (hseat.count_eq (by rw [hpc]; simp)) (fun _ hmem => by cases hmem)
      exact (hseat.awake hlt).resolve_left (by rw [hpc]; simp)
    · simp only [hthreads other heq' heq, Function.update_of_ne heq]
      refine (htidy.seat other).of_not_allocates ?_ (by omega) (by omega)
      exact htidy.not_allocates horderly (Sched.creating_of_script hscript) heq'
  · have hold : ∀ other spawned, other ≠ slot →
        (((state.set slot { state.threads slot with pc := .spawn new, script := rest }).set new
          { script := program.body body }).threads other).pc = .spawn spawned →
        (state.threads other).pc = .spawn spawned := by
      intro other spawned hother hspawn
      by_cases heq : other = new
      · subst heq
        rw [Sched.threads_set_self] at hspawn
        cases hspawn
      · rwa [hthreads other hother heq] at hspawn
    intro first spawned hfirst
    by_cases heq : first = slot
    · subst heq
      simp only [hslot, Pc.spawn.injEq] at hfirst
      subst hfirst
      refine ⟨Nat.lt_succ_of_le (Nat.le_of_eq hnew), ?_, ?_⟩
      · simp only [Sched.threads_set_self]
      · intro other hother
        by_contra hother'
        have hspawned := (htidy.spawns other new (hold other new hother' hother)).1
        omega
    · have hfirst' := hold first spawned heq hfirst
      obtain ⟨hreg, hunborn, hunique⟩ := htidy.spawns first spawned hfirst'
      have hspawned : spawned ≠ slot := by
        rintro rfl
        rw [hpc] at hunborn
        cases hunborn
      refine ⟨Nat.lt_succ_of_lt hreg, ?_, ?_⟩
      · simp only [hthreads spawned hspawned (by omega)]
        exact hunborn
      · intro other hother
        by_cases hother' : other = slot
        · subst hother'
          simp only [hslot, Pc.spawn.injEq] at hother
          omega
        · exact hunique other (hold other spawned hother' hother)

/-- Whoever is somewhere in its script is registered and active, and nobody is starting it. -/
theorem running (htidy : Tidy state) {pc : Pc} (hpc : (state.threads slot).pc = pc)
    (hunborn : pc ≠ .unborn) (hexited : pc ≠ .exited) :
    slot < state.registered ∧ state.active slot = true
      ∧ ∀ other, (state.threads other).pc ≠ .spawn slot := by
  subst hpc
  have hlt := htidy.lt_registered hunborn
  exact ⟨hlt, ((htidy.seat slot).awake hlt).resolve_left hexited, htidy.not_spawn hunborn⟩

theorem scan (htidy : Tidy state) {pc : Pc} (hto : pc.AtGate)
    (hfrom : (state.threads slot).pc.AtGate ∨ ((state.threads slot).pc = .run
      ∧ (state.threads slot).depth = 0
      ∧ ∃ lock shared rest, (state.threads slot).script = .lock lock shared :: rest)) :
    Tidy (state.set slot { state.threads slot with pc }) := by
  have hseat := htidy.seat slot
  obtain ⟨hheld, hunborn, hexited, hnew⟩ := hto.alive
  have hold : (state.threads slot).pc ≠ .held ∧ (state.threads slot).pc ≠ .unborn
      ∧ (state.threads slot).pc ≠ .exited ∧ (state.threads slot).pc.new = none := by
    obtain hfrom | ⟨hpc, -⟩ := hfrom
    · exact hfrom.alive
    · rw [hpc]
      decide
  obtain ⟨hlt, hactive, hfree⟩ := htidy.running rfl hold.2.1 hold.2.2.1
  have hscript : (state.threads slot).depth = 0
      ∧ ∃ lock shared rest, (state.threads slot).script = .lock lock shared :: rest :=
    hfrom.elim hseat.atGate And.right
  refine htidy.set hfree (fun _ => Pc.allocates_eq_none hold.2.2.2) ?_
    (fun _ _ => ⟨rfl, rfl, rfl⟩) (.of_lt hlt (.inr hactive) (absurd · hexited)
      (fun _ => hscript) ?_ ?_)
  · rintro new hspawn
    dsimp only at hspawn
    rw [hspawn] at hnew
    cases hnew
  · rw [hseat.count_eq hold.1, if_neg hheld, Nat.add_zero]
  · rw [Pc.allocates_eq_none hnew]
    exact fun new hmem => absurd hmem (Option.not_mem_none new)

/-- A thread that runs goes on with its script. -/
theorem inside (htidy : Tidy state) (hpc : (state.threads slot).pc = .run) (script : List Act)
    (depth : Nat) (holders : Nat → List (Nat × Bool)) :
    Tidy { state.set slot { pc := .run, script, depth } with holders } := by
  obtain ⟨hlt, hactive, hfree⟩ := htidy.running hpc (by decide) (by decide)
  exact htidy.set hfree (fun _ => by rw [hpc]; rfl) (fun new hspawn => by cases hspawn)
    (fun _ _ => ⟨rfl, rfl, rfl⟩) (.of_lt hlt (.inr hactive) (fun hexited => by cases hexited)
      (fun hgate => hgate.elim) ((htidy.seat slot).count_eq (by rw [hpc]; decide))
      (fun _ hmem => by cases hmem))

theorem exit (htidy : Tidy state) (hpc : (state.threads slot).pc = .run)
    (hscript : (state.threads slot).script = []) :
    Tidy (state.exit slot (state.threads slot)) := by
  obtain ⟨hlt, -, hfree⟩ := htidy.running hpc (by decide) (by decide)
  exact htidy.set hfree (fun _ => by rw [hpc]; rfl) (fun new hspawn => by cases hspawn)
    (fun other hne => ⟨rfl, Function.update_of_ne hne _ _, rfl⟩)
    (.of_lt hlt (.inl rfl) (fun _ => hscript) (fun hgate => hgate.elim)
      ((htidy.seat slot).count_eq (by rw [hpc]; decide)) (fun _ hmem => by cases hmem))

theorem enter (htidy : Tidy state) (hpc : (state.threads slot).pc = .turn) (lock depth : Nat)
    (rest : List Act) (holders : Nat → List (Nat × Bool)) :
    Tidy { state.set slot { pc := .held, script := rest, depth } with
      holders
      acquired := state.acquired ++ [(slot, lock)] } := by
  obtain ⟨hlt, hactive, hfree⟩ := htidy.running hpc (by decide) (by decide)
  refine htidy.set hfree (fun _ => by rw [hpc]; rfl) (fun new hspawn => by cases hspawn) ?_
    (.of_lt hlt (.inr hactive) (fun hexited => by cases hexited) (fun hgate => hgate.elim) ?_
      (fun _ hmem => by cases hmem))
  · intro other hne
    refine ⟨rfl, rfl, ?_⟩
    rw [countOf_concat, if_neg (Ne.symm hne), Nat.add_zero]
  · rw [countOf_concat, (htidy.seat slot).count_eq (by rw [hpc]; decide), if_pos rfl, if_pos rfl]
    rfl

theorem advance (htidy : Tidy state) (hpc : (state.threads slot).pc = .held) :
    Tidy (state.advance slot (state.threads slot)) := by
  obtain ⟨hlt, hactive, hfree⟩ := htidy.running hpc (by decide) (by decide)
  refine htidy.set hfree (fun _ => by rw [hpc]; rfl) (fun new hspawn => by cases hspawn)
    (fun other hne => ⟨Function.update_of_ne hne _ _, rfl, rfl⟩)
    (.of_lt hlt (.inr hactive) (fun hexited => by cases hexited) (fun hgate => hgate.elim) ?_
      (fun _ hmem => by cases hmem))
  have hcount := (htidy.seat slot).count
  rw [if_pos hpc] at hcount
  rw [Function.update_self]
  exact hcount

/-- The clock of a slot that was fetched is zero already. -/
theorem storeLc (htidy : Tidy state) {new : Nat} (hpc : (state.threads slot).pc = .storeLc new) :
    Tidy { state.set slot { state.threads slot with pc := .storeActive new } with
      lc := Function.update state.lc new 0 } := by
  have hseat := htidy.seat slot
  obtain ⟨hlt, hactive, hfree⟩ := htidy.running hpc (by simp) (by simp)
  obtain ⟨hnew, hnext, hscript⟩ := hseat.allocates new (by rw [hpc]; rfl)
  obtain ⟨-, hlc, -⟩ := (htidy.seat new).beyond (Nat.le_of_eq hnew.symm)
  have hsame : Function.update state.lc new 0 = state.lc := by
    rw [← hlc, Function.update_eq_self]
  rw [hsame]
  refine htidy.set hfree (fun hnone => by cases hnone) (fun new hspawn => by cases hspawn)
    (fun _ _ => ⟨rfl, rfl, rfl⟩) (.of_lt hlt (.inr hactive) (fun hexited => by cases hexited)
      (fun hgate => hgate.elim) (hseat.count_eq (by rw [hpc]; simp)) ?_)
  rintro _ hmem
  cases hmem
  exact ⟨hnew, hnext, hscript⟩

theorem spawn (htidy : Tidy state) {new : Nat} (hpc : (state.threads slot).pc = .spawn new) :
    Tidy ((state.set slot { state.threads slot with pc := .run }).set new
      { state.threads new with pc := .run }) := by
  obtain ⟨hlt, hactive, hfree⟩ := htidy.running hpc (by simp) (by simp)
  obtain ⟨hnew, hunborn, hunique⟩ := htidy.spawns slot new hpc
  have hne : new ≠ slot := by
    rintro rfl
    rw [hpc] at hunborn
    cases hunborn
  have hrun : Tidy (state.set slot { state.threads slot with pc := .run }) :=
    htidy.set hfree (fun _ => by rw [hpc]; rfl) (fun new hspawn => by cases hspawn)
      (fun _ _ => ⟨rfl, rfl, rfl⟩) (.of_lt hlt (.inr hactive) (fun hexited => by cases hexited)
        (fun hgate => hgate.elim) ((htidy.seat slot).count_eq (by rw [hpc]; simp))
        (fun _ hmem => by cases hmem))
  have hnewSeat := htidy.seat new
  refine hrun.set ?_ ?_ (fun new hspawn => by cases hspawn) (fun _ _ => ⟨rfl, rfl, rfl⟩)
    (.of_lt hnew (.inr ?_) (fun hexited => by cases hexited) (fun hgate => hgate.elim)
      (hnewSeat.count_eq (by rw [hunborn]; decide)) (fun _ hmem => by cases hmem))
  · intro other hother
    by_cases heq : other = slot
    · subst heq
      rw [Sched.threads_set_self] at hother
      cases hother
    · rw [Sched.threads_set_of_ne heq] at hother
      exact heq (hunique other hother)
  · rw [Sched.threads_set_of_ne hne, hunborn]
    exact fun _ => rfl
  · exact (hnewSeat.awake hnew).resolve_left (by rw [hunborn]; decide)

/-- **The step lemma.** -/
theorem step (htidy : Tidy state) (horderly : state.Orderly)
    (hmoves : Moves program state slot next) : Tidy next := by
  cases hmoves with
  | stay => exact htidy
  | scan hto hfrom => exact htidy.scan hto hfrom
  | inside hpc hact hleft => exact htidy.inside hpc _ _ _
  | exit hpc hscript => exact htidy.exit hpc hscript
  | fetch hpc hscript hmax => exact htidy.fetch horderly hpc hscript
  | enter hpc hscript => exact htidy.enter hpc _ _ _ _
  | advance hpc => exact htidy.advance hpc
  | storeLc hpc => exact htidy.storeLc hpc
  | register hpc hscript => exact htidy.register horderly hpc hscript
  | spawn hpc => exact htidy.spawn hpc

end Tidy

/-! ### Orderly runs -/

theorem Tidy.init (program : Program) : Tidy (Sched.init program) := by
  have hother : ∀ slot, slot ≠ 0 → (Sched.init program).threads slot = {} := by
    intro slot hne
    obtain ⟨slot, rfl⟩ := Nat.exists_eq_succ_of_ne_zero hne
    rfl
  refine ⟨?_, fun _ => rfl, ?_⟩
  · intro slot
    by_cases heq : slot = 0
    · subst heq
      exact .of_lt Nat.one_pos (.inr rfl) (fun hexited => by cases hexited) (fun hgate => hgate.elim)
        rfl (fun _ hmem => by cases hmem)
    · rw [hother slot heq]
      refine ⟨fun _ => ⟨decide_eq_false ?_, rfl, rfl⟩, fun hlt => ?_, fun _ => rfl,
        fun hgate => hgate.elim, rfl, fun _ hmem => by cases hmem⟩
      · exact fun hlt => heq (Nat.lt_one_iff.mp hlt)
      · exact absurd (Nat.lt_one_iff.mp hlt) heq
  · intro slot new hspawn
    by_cases heq : slot = 0
    · subst heq
      cases hspawn
    · rw [hother slot heq] at hspawn
      cases hspawn

/-- What holds in every state of an orderly run. -/
structure Ready (state : Sched) : Prop where
  tidy : Tidy state
  gate : Gate false state

namespace Ready

variable {program : Program} {state : Sched} {slot : Nat}

theorem step (hspin : program.spinCap = 0) (hready : Ready state) (horderly : state.Orderly) :
    Ready (state.step program slot) := by
  obtain ⟨htidy, hgate⟩ := hready
  have hseat := htidy.seat slot
  refine ⟨htidy.step horderly (moves_step program state slot), hgate.step hspin slot ?_ ?_ ?_⟩
  · intro new hnew
    by_cases hallocates : (state.threads slot).pc.allocates = some new
    · obtain ⟨heq, hnext, -⟩ := hseat.allocates new hallocates
      obtain ⟨-, -, hthread⟩ := (htidy.seat new).beyond (Nat.le_of_eq heq.symm)
      exact ⟨by omega, by rw [hthread]⟩
    · have hpc : (state.threads slot).pc = .spawn new := by
        cases hpc : (state.threads slot).pc <;> rw [hpc] at hnew hallocates <;> cases hnew <;>
          first | rfl | exact absurd rfl hallocates
      obtain ⟨hlt, hunborn, -⟩ := htidy.spawns slot new hpc
      exact ⟨Nat.lt_of_lt_of_le hlt htidy.registered_le, hunborn⟩
  · intro new hpc
    obtain ⟨heq, -⟩ := hseat.allocates new (by rw [hpc]; rfl)
    exact ((htidy.seat new).beyond (Nat.le_of_eq heq.symm)).1
  · -- whoever has cleared the new slot has not been through the gate yet
    intro new hpc other _ hcleared
    obtain ⟨heq, -, body, rest, hscript⟩ := hseat.allocates new (by rw [hpc]; rfl)
    obtain ⟨-, hlc, -⟩ := (htidy.seat new).beyond (Nat.le_of_eq heq.symm)
    have hother := hcleared.atGate
    obtain ⟨hheld, hunborn, -⟩ := hother.alive
    have hlt := htidy.lt_registered hunborn
    have hne : other ≠ slot := by
      rintro rfl
      rw [hpc] at hother
      exact hother
    have hslot : slot < state.registered := htidy.lt_registered (by rw [hpc]; simp)
    have hcount := ((horderly slot hslot (Sched.creating_of_script hscript) other hlt hne).2).resolve_right
      (not_not.mpr (htidy.locking hother))
    rw [(htidy.seat other).count_eq hheld] at hcount
    rw [hcount, hlc, heq]
    exact .inr ⟨rfl, hlt⟩

theorem run (hspin : program.spinCap = 0) {schedule : List Nat}
    (horderly : program.Orderly schedule) :
    Ready (program.reach schedule) :=
  invariant_run Ready (fun _ _ horderly hready => hready.step hspin horderly) horderly
    ⟨.init program, .fixed false _⟩

end Ready

/-! ### Clocks and what is left

What an orderly run does to the others is seen in three numbers for each thread: how many slots there
are, how often the thread has been through the gate, and what it has left to do. -/

structure Logical where
  next : Nat
  clock : Nat → Nat
  left : Nat → List Act

def Sched.logical (state : Sched) : Logical where
  next := state.registered
  clock := countOf state.acquired
  left := state.left

namespace Logical

/-- A thread goes through the gate. -/
def acquire (logical : Logical) (slot : Nat) : Logical where
  next := logical.next
  clock := Function.update logical.clock slot (logical.clock slot + 1)
  left := Function.update logical.left slot (logical.left slot).tail

/-- A thread creates another that runs a body and then does the rest. -/
def create (program : Program) (logical : Logical) (slot body : Nat) (rest : List Act) : Logical where
  next := logical.next + 1
  clock := logical.clock
  left := Function.update (Function.update logical.left slot rest) logical.next
    (gated 0 (program.body body))

/-- One thread's creation. -/
def Creates (program : Program) (before after : Logical) : Prop :=
  ∃ slot body rest, slot < before.next ∧ before.left slot = .create body :: rest
    ∧ after = before.create program slot body rest

/-- Creations one after another. -/
def Chain (program : Program) : Logical → Logical → Prop := Relation.ReflTransGen (Creates program)

/-- The thread's next call is a lock. -/
def Waits (logical : Logical) (slot lock : Nat) (shared : Bool) : Prop :=
  slot < logical.next ∧ (logical.left slot).head? = some (.lock lock shared)

section

variable {program : Program} {before after : Logical} {slot lock : Nat} {shared : Bool}

theorem left_create (hlt : slot < before.next) {creator body : Nat} {rest : List Act} :
    (before.create program creator body rest).left slot
      = Function.update before.left creator rest slot :=
  Function.update_of_ne (Nat.ne_of_lt hlt) _ _

theorem Waits.ne_of_create (hwaits : before.Waits slot lock shared) {creator body : Nat}
    {rest : List Act} (hleft : before.left creator = .create body :: rest) : slot ≠ creator := by
  rintro rfl
  have hhead := hwaits.2
  rw [hleft] at hhead
  cases hhead

theorem Creates.next_lt (hcreates : Creates program before after) : before.next < after.next := by
  obtain ⟨creator, body, rest, -, -, rfl⟩ := hcreates
  exact Nat.lt_succ_self _

/-- A creation does not touch a thread that waits for a lock. -/
theorem Creates.left_of_waits (hcreates : Creates program before after)
    (hwaits : before.Waits slot lock shared) : after.left slot = before.left slot := by
  obtain ⟨creator, body, rest, hlt, hleft, rfl⟩ := hcreates
  rw [left_create hwaits.1, Function.update_of_ne (hwaits.ne_of_create hleft)]

theorem Creates.waits (hcreates : Creates program before after)
    (hwaits : before.Waits slot lock shared) : after.Waits slot lock shared := by
  refine ⟨Nat.lt_trans hwaits.1 hcreates.next_lt, ?_⟩
  rw [hcreates.left_of_waits hwaits]
  exact hwaits.2

/-- What a thread has left after a creation it had left before. -/
theorem Creates.mem_left (hcreates : Creates program before after) (hlt : slot < before.next)
    {act : Act} (hact : act ∈ after.left slot) : act ∈ before.left slot := by
  obtain ⟨creator, body, rest, -, hleft, rfl⟩ := hcreates
  rw [left_create hlt] at hact
  by_cases heq : slot = creator
  · subst heq
    rw [Function.update_self] at hact
    rw [hleft]
    exact List.mem_cons_of_mem _ hact
  · rwa [Function.update_of_ne heq] at hact

/-- A creation can be put after an acquisition. -/
theorem Creates.acquire (hcreates : Creates program before after)
    (hwaits : before.Waits slot lock shared) :
    Creates program (before.acquire slot) (after.acquire slot) := by
  have hslot := hcreates.left_of_waits hwaits
  obtain ⟨creator, body, rest, hlt, hleft, rfl⟩ := hcreates
  have hne : creator ≠ slot := (hwaits.ne_of_create hleft).symm
  refine ⟨creator, body, rest, hlt, ?_, ?_⟩
  · rw [Logical.acquire]
    dsimp only
    rw [Function.update_of_ne hne, hleft]
  · have hlefts : (acquire (before.create program creator body rest) slot).left
        = (create program (before.acquire slot) creator body rest).left := by
      calc Function.update (before.create program creator body rest).left slot
            ((before.create program creator body rest).left slot).tail
          = Function.update (Function.update (Function.update before.left creator rest) before.next
              (gated 0 (program.body body))) slot (before.left slot).tail := by rw [hslot]; rfl
        _ = Function.update (Function.update (Function.update before.left creator rest) slot
              (before.left slot).tail) before.next (gated 0 (program.body body)) :=
            Function.update_comm (Nat.ne_of_gt hwaits.1) _ _ _
        _ = Function.update (Function.update (Function.update before.left slot
              (before.left slot).tail) creator rest) before.next (gated 0 (program.body body)) := by
            rw [Function.update_comm hne]
    rw [Logical.mk.injEq]
    exact ⟨rfl, rfl, hlefts⟩

namespace Chain

theorem next_le (hchain : Chain program before after) : before.next ≤ after.next := by
  induction hchain with
  | refl => exact Nat.le_refl _
  | tail _ hcreates ih => exact Nat.le_trans ih (Nat.le_of_lt hcreates.next_lt)

theorem waits (hchain : Chain program before after) (hwaits : before.Waits slot lock shared) :
    after.Waits slot lock shared := by
  induction hchain with
  | refl => exact hwaits
  | tail _ hcreates ih => exact hcreates.waits ih

theorem mem_left (hchain : Chain program before after) (hlt : slot < before.next) {act : Act}
    (hact : act ∈ after.left slot) : act ∈ before.left slot := by
  induction hchain with
  | refl => exact hact
  | tail hchain hcreates ih =>
      exact ih (hcreates.mem_left (Nat.lt_of_lt_of_le hlt (next_le hchain)) hact)

theorem acquire (hchain : Chain program before after) (hwaits : before.Waits slot lock shared) :
    Chain program (before.acquire slot) (after.acquire slot) := by
  induction hchain with
  | refl => exact .refl
  | tail hchain hcreates ih => exact .tail ih (hcreates.acquire (waits hchain hwaits))

end Chain

end

end Logical

/-! ### What the steps do to it -/

theorem Sched.left_set (state : Sched) (slot : Nat) (thread : Thread) :
    (state.set slot thread).left
      = Function.update state.left slot (gated thread.depth thread.script) := by
  funext other
  by_cases heq : other = slot
  · subst heq
    rw [Sched.left, Sched.threads_set_self, Function.update_self]
  · rw [Sched.left, Sched.threads_set_of_ne heq, Function.update_of_ne heq, Sched.left]

/-- The thread waits for a lock, and comes before all others that still take locks. -/
structure Foremost (state : Sched) (slot lock : Nat) (shared : Bool) : Prop where
  waits : state.logical.Waits slot lock shared
  before : ∀ j, j ≠ slot → state.Locking j →
    Before (countOf state.acquired slot, slot) (countOf state.acquired j, j)

/-- The foremost thread goes through the gate. -/
def Acquires (state next : Sched) : Prop :=
  ∃ slot lock shared, Foremost state slot lock shared
    ∧ next.acquired = state.acquired ++ [(slot, lock)]
    ∧ next.logical = state.logical.acquire slot

/-- A step does nothing to the others, creates a thread, or lets one through the gate. -/
inductive Effect (program : Program) (state next : Sched) : Prop where
  | silent (hlogical : next.logical = state.logical) (hacquired : next.acquired = state.acquired)
  | creates (hcreates : Logical.Creates program state.logical next.logical)
      (hacquired : next.acquired = state.acquired)
  | acquires (hacquires : Acquires state next)

namespace Effect

variable {program : Program} {state next : Sched} {slot : Nat}

theorem of_left (hregistered : next.registered = state.registered)
    (hacquired : next.acquired = state.acquired) (hleft : next.left = state.left) :
    Effect program state next := by
  refine .silent ?_ hacquired
  rw [Sched.logical, Sched.logical, hregistered, hacquired, hleft]

/-- A step that changes only where its thread stands. -/
theorem of_pc (pc : Pc) (hregistered : next.registered = state.registered)
    (hacquired : next.acquired = state.acquired)
    (hthreads : next.threads = (state.set slot { state.threads slot with pc }).threads) :
    Effect program state next := by
  refine of_left hregistered hacquired ?_
  calc next.left
      = (state.set slot { state.threads slot with pc }).left := by
          funext other
          rw [Sched.left, hthreads, Sched.left]
    _ = Function.update state.left slot (state.left slot) := Sched.left_set state slot _
    _ = state.left := Function.update_eq_self slot state.left

theorem of_moves (hready : Ready state) (hmoves : Moves program state slot next) :
    Effect program state next := by
  obtain ⟨htidy, hgate⟩ := hready
  cases hmoves with
  | stay => exact .silent rfl rfl
  | @scan pc hto hfrom => exact of_pc pc rfl rfl rfl
  | @inside script depth holders hpc hact hleft =>
      refine of_left rfl rfl ?_
      calc (state.set slot { pc := .run, script, depth }).left
          = Function.update state.left slot (state.left slot) := by rw [Sched.left_set, hleft]
        _ = state.left := Function.update_eq_self slot state.left
  | exit hpc hscript => exact of_pc .exited rfl rfl rfl
  | fetch hpc hscript hmax => exact of_pc (.storeLc state.nextSlot) rfl rfl rfl
  | @enter lock shared rest holders hpc hscript =>
      have hat : (state.threads slot).pc.AtGate := by
        rw [hpc]
        trivial
      obtain ⟨lock', shared', rest', hscript', hleft⟩ := htidy.left_of_atGate hat
      rw [hscript] at hscript'
      cases hscript'
      have hdepth := ((htidy.seat slot).atGate hat).1
      have hlt : slot < state.registered := htidy.lt_registered (by rw [hpc]; decide)
      refine .acquires ⟨slot, lock, shared, ⟨⟨hlt, congrArg List.head? hleft⟩, ?_⟩, rfl, ?_⟩
      · intro j hne hlocking
        have hbefore := hgate.cleared slot j hne (by rw [hpc]; trivial) (htidy.active_of_locking hlocking)
        rw [(htidy.seat slot).count_eq (by rw [hpc]; decide), (htidy.seat j).count]
        exact hbefore.mono (Nat.le_add_right _ _)
      · rw [Sched.logical, Logical.acquire, Logical.mk.injEq]
        refine ⟨rfl, ?_, ?_⟩
        · funext other
          dsimp only [Sched.logical]
          rw [countOf_concat]
          by_cases heq : other = slot
          · rw [heq, if_pos rfl, Function.update_self]
          · rw [if_neg (Ne.symm heq), Function.update_of_ne heq, Nat.add_zero]
        · calc (state.set slot
                { pc := .held, script := rest, depth := (state.threads slot).depth + 1 }).left
              = Function.update state.left slot (gated ((state.threads slot).depth + 1) rest) :=
                Sched.left_set state slot _
            _ = Function.update state.left slot (state.left slot).tail := by
                rw [hleft, hdepth]
                rfl
  | advance hpc => exact of_pc .run rfl rfl rfl
  | @storeLc new hpc => exact of_pc (.storeActive new) rfl rfl rfl
  | @register new body rest hpc hscript =>
      obtain ⟨hnew, -⟩ := (htidy.seat slot).allocates new (by rw [hpc]; rfl)
      have hlt : slot < state.registered := htidy.lt_registered (by rw [hpc]; simp)
      have hleft : state.left slot = .create body :: gated (state.threads slot).depth rest := by
        rw [Sched.left, hscript, gated_create]
      refine .creates ⟨slot, body, gated (state.threads slot).depth rest, hlt, hleft, ?_⟩ rfl
      rw [Sched.logical, Logical.create, Logical.mk.injEq]
      refine ⟨rfl, rfl, ?_⟩
      calc ((state.set slot { state.threads slot with pc := .spawn new, script := rest }).set new
            { script := program.body body }).left
          = Function.update (Function.update state.left slot
              (gated (state.threads slot).depth rest)) new (gated 0 (program.body body)) := by
            rw [Sched.left_set, Sched.left_set]
        _ = Function.update (Function.update state.left slot
              (gated (state.threads slot).depth rest)) state.registered
                (gated 0 (program.body body)) := by rw [hnew]
  | @spawn new hpc =>
      refine of_left rfl rfl ?_
      calc ((state.set slot { state.threads slot with pc := .run }).set new
            { state.threads new with pc := .run }).left
          = Function.update (Function.update state.left slot (state.left slot)) new
              (state.left new) := by
            rw [Sched.left_set, Sched.left_set]
            rfl
        _ = state.left := by rw [Function.update_eq_self, Function.update_eq_self]

end Effect

/-! ### Two runs -/

section Agree

open Logical

variable {program : Program} {first second first' second' : Sched}

theorem Logical.Waits.locking {state : Sched} {slot lock : Nat} {shared : Bool}
    (hwaits : state.logical.Waits slot lock shared) : state.Locking slot :=
  ⟨.lock lock shared, List.mem_of_mem_head? hwaits.2, rfl⟩

/-- Who is about to create is known, and so is what comes of it. -/
theorem Logical.Creates.unique {state : Sched} (htidy : Tidy state) (horderly : state.Orderly)
    {after after' : Logical} (hcreates : Creates program state.logical after)
    (hcreates' : Creates program state.logical after') : after = after' := by
  obtain ⟨slot, body, rest, -, hleft, rfl⟩ := hcreates
  obtain ⟨slot', body', rest', -, hleft', rfl⟩ := hcreates'
  have hcreating : ∀ {slot body rest}, state.logical.left slot = .create body :: rest →
      state.Creating slot := fun hleft => ⟨_, congrArg List.head? hleft, rfl⟩
  obtain rfl := htidy.creating_unique horderly (hcreating hleft') (hcreating hleft)
  rw [hleft] at hleft'
  cases hleft'
  rfl

/-- The states have the same acquisitions, and differ only in how far the creations have come. -/
structure Agree (program : Program) (first second : Sched) : Prop where
  acquired : first.acquired = second.acquired
  chain : Chain program first.logical second.logical ∨ Chain program second.logical first.logical

namespace Agree

theorem symm (hagree : Agree program first second) : Agree program second first :=
  ⟨hagree.acquired.symm, hagree.chain.symm⟩

theorem creates (hagree : Agree program first second) (htidy : Tidy first) (horderly : first.Orderly)
    (hcreates : Creates program first.logical first'.logical)
    (hacquired : first'.acquired = first.acquired) : Agree program first' second := by
  refine ⟨hacquired.trans hagree.acquired, ?_⟩
  obtain hchain | hchain := hagree.chain
  · obtain hsame | ⟨after, hnext, hchain⟩ := hchain.cases_head
    · rw [← hsame]
      exact .inr (.single hcreates)
    · rw [hnext.unique htidy horderly hcreates] at hchain
      exact .inl hchain
  · exact .inr (hchain.tail hcreates)

/-- The foremost thread stays so when others are created. -/
theorem slot_eq (horderly : first.Orderly) (hacquired : first.acquired = second.acquired)
    (hchain : Chain program first.logical second.logical)
    {slot slot' lock lock' : Nat} {shared shared' : Bool}
    (hfirst : Foremost first slot lock shared) (hsecond : Foremost second slot' lock' shared') :
    slot = slot' := by
  by_contra hne
  have hwaits := hfirst.waits
  have hbefore := hsecond.before slot hne (hchain.waits hwaits).locking
  rw [← hacquired] at hbefore
  have hlt : slot' < first.registered := by
    obtain hsame | ⟨after, ⟨creator, body, rest, hcreator, hleft, -⟩, -⟩ := hchain.cases_head
    · have hwaits' := hsecond.waits
      rw [← hsame] at hwaits'
      exact hwaits'.1
    · -- a thread that waits beside a creator has clock zero, so only an older one is before it
      have hzero := ((horderly creator hcreator ⟨_, congrArg List.head? hleft, rfl⟩ slot hwaits.1
        (hwaits.ne_of_create hleft)).2).resolve_right (not_not.mpr hwaits.locking)
      rw [hzero] at hbefore
      obtain hclock | ⟨-, hslot⟩ := hbefore
      · exact absurd hclock (Nat.not_lt_zero _)
      · exact Nat.lt_trans hslot hwaits.1
  have hlocking : first.Locking slot' := by
    obtain ⟨act, hact, hlock⟩ := hsecond.waits.locking
    exact ⟨act, hchain.mem_left hlt hact, hlock⟩
  exact hbefore.asymm (hfirst.before slot' (Ne.symm hne) hlocking)

theorem acquires_of_chain (horderly : first.Orderly) (hacquired : first.acquired = second.acquired)
    (hchain : Chain program first.logical second.logical)
    (hfirst : Acquires first first') (hsecond : Acquires second second') :
    first'.acquired = second'.acquired ∧ Chain program first'.logical second'.logical := by
  obtain ⟨slot, lock, shared, hforemost, hfirst, hlogical⟩ := hfirst
  obtain ⟨slot', lock', shared', hforemost', hsecond, hlogical'⟩ := hsecond
  obtain rfl := slot_eq horderly hacquired hchain hforemost hforemost'
  have hhead := (hchain.waits hforemost.waits).2.symm.trans hforemost'.waits.2
  cases hhead
  rw [hfirst, hsecond, hlogical, hlogical', hacquired]
  exact ⟨rfl, hchain.acquire hforemost.waits⟩

/-- Both runs let a thread through the gate. -/
theorem acquires (hagree : Agree program first second) (horderly : first.Orderly)
    (horderly' : second.Orderly) (hfirst : Acquires first first') (hsecond : Acquires second second') :
    Agree program first' second' := by
  obtain hchain | hchain := hagree.chain
  · obtain ⟨hacquired, hchain'⟩ := acquires_of_chain horderly hagree.acquired hchain hfirst hsecond
    exact ⟨hacquired, .inl hchain'⟩
  · obtain ⟨hacquired, hchain'⟩ :=
      acquires_of_chain horderly' hagree.acquired.symm hchain hsecond hfirst
    exact ⟨hacquired.symm, .inr hchain'⟩

/-- A step that lets nobody through the gate, or one that does. -/
theorem step (hready : Ready first) (horderly : first.Orderly) (slot : Nat) :
    ((first.step program slot).acquired = first.acquired
        ∧ (Agree program first second → Agree program (first.step program slot) second))
      ∨ Acquires first (first.step program slot) := by
  cases Effect.of_moves hready (moves_step program first slot) with
  | silent hlogical hacquired =>
      refine .inl ⟨hacquired, fun hagree => ⟨hacquired.trans hagree.acquired, ?_⟩⟩
      rw [hlogical]
      exact hagree.chain
  | creates hcreates hacquired =>
      exact .inl ⟨hacquired, fun hagree => hagree.creates hready.tidy horderly hcreates hacquired⟩
  | acquires hacquires => exact .inr hacquires

end Agree

theorem reach_concat (program : Program) (schedule : List Nat) (slot : Nat) :
    program.reach (schedule ++ [slot]) = (program.reach schedule).step program slot := run_append _

theorem orderly_concat {schedule : List Nat} {slot : Nat} :
    program.Orderly (schedule ++ [slot])
      ↔ program.Orderly schedule ∧ (program.reach schedule).Orderly := by
  rw [Program.Orderly, guarded_append]
  exact and_congr_right fun _ => and_iff_left trivial

theorem Acquires.length_eq {state next : Sched} (hacquires : Acquires state next) :
    next.acquired.length = state.acquired.length + 1 := by
  obtain ⟨slot, lock, shared, -, hacquired, -⟩ := hacquires
  rw [hacquired, List.length_append]
  rfl

/-- **Two orderly runs with equally many acquisitions agree.** By induction on both runs from the
end: a step that lets nobody through the gate is dropped, and two acquisitions are dropped together. -/
theorem agree_of_length_eq (hspin : program.spinCap = 0) {schedule schedule' : List Nat}
    (horderly : program.Orderly schedule) (horderly' : program.Orderly schedule')
    (hlength : (program.reach schedule).acquired.length
      = (program.reach schedule').acquired.length) :
    Agree program (program.reach schedule) (program.reach schedule') := by
  induction schedule using List.reverseRecOn generalizing schedule' with
  | nil =>
      induction schedule' using List.reverseRecOn with
      | nil => exact ⟨rfl, .inl .refl⟩
      | append_singleton schedule' slot' ih' =>
          obtain ⟨hbefore', hstate'⟩ := orderly_concat.mp horderly'
          rw [reach_concat] at hlength ⊢
          obtain ⟨hsame, hdrop⟩ | hacquires' := Agree.step (Ready.run hspin hbefore') hstate' slot'
          · rw [hsame] at hlength
            exact (hdrop (ih' hbefore' hlength).symm).symm
          · rw [hacquires'.length_eq] at hlength
            exact absurd hlength (Nat.succ_ne_zero _).symm
  | append_singleton schedule slot ih =>
      obtain ⟨hbefore, hstate⟩ := orderly_concat.mp horderly
      rw [reach_concat] at hlength ⊢
      obtain ⟨hsame, hdrop⟩ | hacquires := Agree.step (Ready.run hspin hbefore) hstate slot
      · rw [hsame] at hlength
        exact hdrop (ih hbefore horderly' hlength)
      · induction schedule' using List.reverseRecOn with
        | nil =>
            rw [hacquires.length_eq] at hlength
            exact absurd hlength (Nat.succ_ne_zero _)
        | append_singleton schedule' slot' ih' =>
            obtain ⟨hbefore', hstate'⟩ := orderly_concat.mp horderly'
            rw [reach_concat] at hlength ⊢
            obtain ⟨hsame, hdrop⟩ | hacquires' := Agree.step (Ready.run hspin hbefore') hstate' slot'
            · rw [hsame] at hlength
              exact (hdrop (ih' hbefore' hlength).symm).symm
            · rw [hacquires.length_eq, hacquires'.length_eq] at hlength
              exact (ih hbefore hbefore' (Nat.succ.inj hlength)).acquires hstate hstate' hacquires
                hacquires'

/-- A run has had every smaller number of acquisitions, and then goes on with one. -/
theorem exists_acquires (hspin : program.spinCap = 0) {schedule : List Nat}
    (horderly : program.Orderly schedule) {count : Nat}
    (hcount : count < (program.reach schedule).acquired.length) :
    ∃ earlier, program.Orderly earlier ∧ (program.reach earlier).Orderly
      ∧ (program.reach earlier).acquired.length = count
      ∧ (program.reach earlier).acquired <+: (program.reach schedule).acquired
      ∧ ∃ next, Acquires (program.reach earlier) next := by
  induction schedule using List.reverseRecOn with
  | nil => exact absurd hcount (Nat.not_lt_zero count)
  | append_singleton schedule slot ih =>
      obtain ⟨hbefore, hstate⟩ := orderly_concat.mp horderly
      rw [reach_concat] at hcount ⊢
      have hstep := @Agree.step program (program.reach schedule) (program.reach schedule)
        (Ready.run hspin hbefore) hstate slot
      obtain ⟨hsame, -⟩ | hacquires := hstep
      · rw [hsame] at hcount ⊢
        exact ih hbefore hcount
      · have hprefix : (program.reach schedule).acquired
            <+: ((program.reach schedule).step program slot).acquired := by
          obtain ⟨slot, lock, shared, -, hacquired, -⟩ := hacquires
          rw [hacquired]
          exact List.prefix_append _ _
        obtain hlt | heq := Nat.lt_or_eq_of_le (Nat.le_of_lt_succ (hacquires.length_eq ▸ hcount))
        · obtain ⟨earlier, hearlier, hthere, hlength, hle, hnext⟩ := ih hbefore hlt
          exact ⟨earlier, hearlier, hthere, hlength, hle.trans hprefix, hnext⟩
        · exact ⟨schedule, hbefore, hstate, heq.symm, hprefix, _, hacquires⟩

theorem prefix_of_le (hspin : program.spinCap = 0) {schedule schedule' : List Nat}
    (horderly : program.Orderly schedule) (horderly' : program.Orderly schedule')
    (hle : (program.reach schedule).acquired.length ≤ (program.reach schedule').acquired.length) :
    (program.reach schedule).acquired <+: (program.reach schedule').acquired := by
  obtain hlt | heq := Nat.lt_or_eq_of_le hle
  · obtain ⟨earlier, hearlier, -, hlength, hprefix, -⟩ := exists_acquires hspin horderly' hlt
    rwa [(agree_of_length_eq hspin horderly hearlier hlength.symm).acquired]
  · exact (agree_of_length_eq hspin horderly horderly' heq).acquired ▸ List.prefix_refl _

theorem Tidy.left_of_finished {state : Sched} (htidy : Tidy state) (hfinished : state.Finished)
    (slot : Nat) : state.left slot = [] := by
  by_cases hlt : slot < state.registered
  · rw [Sched.left, (htidy.seat slot).gone (hfinished slot hlt), gated]
  · exact htidy.left_beyond (Nat.not_lt.mp hlt)

/-- A run that has come to its end is not behind any other. -/
theorem le_of_finished (hspin : program.spinCap = 0) {schedule schedule' : List Nat}
    (horderly : program.Orderly schedule) (horderly' : program.Orderly schedule')
    (hfinished : (program.reach schedule).Finished) :
    (program.reach schedule').acquired.length ≤ (program.reach schedule).acquired.length := by
  by_contra hlt
  obtain ⟨earlier, hearlier, -, hlength, -, next, slot, lock, shared, hforemost, -⟩ :=
    exists_acquires hspin horderly' (Nat.not_le.mp hlt)
  have hempty := (Ready.run hspin horderly).tidy.left_of_finished hfinished
  have hnobody : ¬ (program.reach schedule).logical.Waits slot lock shared := by
    rintro ⟨-, hhead⟩
    have hnil : (program.reach schedule).logical.left slot = [] := hempty slot
    rw [hnil] at hhead
    cases hhead
  obtain hchain | hchain := (agree_of_length_eq hspin horderly hearlier hlength.symm).chain
  · obtain hsame | ⟨after, ⟨creator, body, rest, -, hleft, -⟩, -⟩ := hchain.cases_head
    · rw [hsame] at hnobody
      exact hnobody hforemost.waits
    · cases (hempty creator).symm.trans hleft
  · exact hnobody (hchain.waits hforemost.waits)

end Agree

/-- **The lock order does not depend on the schedule.** In two runs that are orderly, whatever the
order of their steps, one makes the first of the other's acquisitions, and two runs to the end make
the same. -/
theorem lock_order_unique {program : Program} (hspin : program.spinCap = 0)
    {schedule schedule' : List Nat} (horderly : program.Orderly schedule)
    (horderly' : program.Orderly schedule') :
    ((program.reach schedule).acquired <+: (program.reach schedule').acquired
        ∨ (program.reach schedule').acquired <+: (program.reach schedule).acquired)
      ∧ ((program.reach schedule).Finished → (program.reach schedule').Finished →
        (program.reach schedule).acquired = (program.reach schedule').acquired) := by
  refine ⟨?_, ?_⟩
  · obtain hle | hle := Nat.le_total (program.reach schedule).acquired.length
      (program.reach schedule').acquired.length
    · exact .inl (prefix_of_le hspin horderly horderly' hle)
    · exact .inr (prefix_of_le hspin horderly' horderly hle)
  · intro hfinished hfinished'
    have hlength := Nat.le_antisymm (le_of_finished hspin horderly' horderly hfinished')
      (le_of_finished hspin horderly horderly' hfinished)
    exact (agree_of_length_eq hspin horderly horderly' hlength).acquired

/-- A schedule in which threads take several steps in a row. -/
def inBlocks (blocks : List (Nat × Nat)) : List Nat :=
  blocks.flatMap fun block => List.replicate block.2 block.1

/-- The main thread creates two others before its first lock. -/
def earlyChildren : Program where
  body
    | 0 => [.create 1, .create 1, .lock 0 false, .unlock 0]
    | 1 => [.lock 1 false, .unlock 1]
    | _ => []

theorem lock_order_unique_earlyChildren :
    (earlyChildren.reach (inBlocks [(0, 6), (1, 8), (0, 25), (1, 16), (2, 15)])).acquired
      = (earlyChildren.reach (inBlocks [(0, 22), (2, 4), (1, 14), (2, 15)])).acquired :=
  (@lock_order_unique earlyChildren rfl _ _ (by unfold Program.Orderly; decide +kernel)
    (by unfold Program.Orderly; decide +kernel)).2 (by decide +kernel) (by decide +kernel)

/-- The main thread has been through the gate twice when it creates two others. -/
def lateChildren : Program where
  body
    | 0 => [.lock 0 false, .unlock 0, .lock 0 false, .unlock 0, .create 1, .create 2]
    | 1 => [.lock 1 false, .unlock 1, .lock 1 false, .unlock 1]
    | 2 => [.lock 2 false, .unlock 2]
    | _ => []

/-- The first child may have taken its lock twice before the second is there, or once. -/
theorem lateChildren_reach :
    let first := lateChildren.reach (inBlocks [(0, 22), (1, 23), (0, 4), (2, 14)])
    let second := lateChildren.reach (inBlocks [(0, 26), (1, 20), (2, 20), (1, 20)])
    (first.Finished ∧ first.acquired = [(0, 0), (0, 0), (1, 1), (1, 1), (2, 2)])
      ∧ second.Finished ∧ second.acquired = [(0, 0), (0, 0), (1, 1), (2, 2), (1, 1)] := by
  decide +kernel

theorem lock_order_depends_on_schedule :
    ¬ ∀ program : Program, program.spinCap = 0 → (∀ body, paired (program.body body)) →
      ∀ schedule schedule', (program.reach schedule).Finished → (program.reach schedule').Finished →
        (program.reach schedule).acquired = (program.reach schedule').acquired := by
  intro hunique
  obtain ⟨⟨hfirst, hacquired⟩, hsecond, hacquired'⟩ := lateChildren_reach
  have hpaired : ∀ body, paired (lateChildren.body body)
    | 0 | 1 | 2 | _ + 3 => rfl
  have hsame := hunique lateChildren rfl hpaired _ _ hfirst hsecond
  rw [hacquired, hacquired'] at hsame
  exact absurd hsame (by decide)

end OneBarrier.Detsched
