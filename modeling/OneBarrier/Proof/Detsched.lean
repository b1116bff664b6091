import OneBarrier.Detsched
import Mathlib.Data.List.Induction

/-!
# The gate

A thread that scans the slots keeps what it has learnt: clocks only go up, and a thread that has left
does not come back. So whoever gets its turn is before every active thread, and stays so until it
advances. With a fixed set of threads this makes turns exclusive and the order of acquisitions the
order of clocks and slots.
-/

namespace OneBarrier.Detsched

open Run

/-! ### Clocks and slots -/

namespace Before

variable {first second third : Nat × Nat}

theorem trans (hfirst : Before first second) (hsecond : Before second third) : Before first third := by
  unfold Before at *
  omega

theorem irrefl (first : Nat × Nat) : ¬ Before first first := by
  unfold Before
  omega

theorem asymm (hbefore : Before first second) : ¬ Before second first := fun hafter =>
  irrefl first (hbefore.trans hafter)

/-- A later clock on the right is later still. -/
theorem mono {clock clock' slot : Nat} (hbefore : Before first (clock, slot)) (hle : clock ≤ clock') :
    Before first (clock', slot) := by
  unfold Before at *
  dsimp only at *
  omega

/-- An earlier clock on the left is earlier still. -/
theorem anti {clock clock' slot : Nat} (hbefore : Before (clock, slot) second) (hle : clock' ≤ clock) :
    Before (clock', slot) second := by
  unfold Before at *
  dsimp only at *
  omega

end Before

/-! ### What a scan has learnt -/

namespace Pc

/-- The slots a thread has found itself to be before; `strict` says whether that is kept up to the
advance. -/
def Cleared (strict : Bool) (j : Nat) : Pc → Prop
  | loadActive _ _ count i | loadOther _ _ count i => j < i ∨ count ≤ j
  | turn => True
  | held => strict = true
  | _ => False

/-- The own clock, once loaded. -/
def mylc : Pc → Option Nat
  | loadCount _ mylc | loadActive _ mylc _ _ | loadOther _ mylc _ _ => some mylc
  | _ => none

/-- The slot that is being given to a new thread. -/
def new : Pc → Option Nat
  | storeLc slot | storeActive slot | spawn slot => some slot
  | _ => none

end Pc

namespace Sched

variable {state : Sched} {slot other : Nat} {thread : Thread}

@[simp]
theorem threads_set_self : (state.set slot thread).threads slot = thread := by
  simp [set]

theorem threads_set_of_ne (hne : other ≠ slot) :
    (state.set slot thread).threads other = state.threads other := by
  simp [set, hne]

end Sched

/-- At the start a slot has its script, or nothing. -/
theorem Sched.threads_fixed (scripts : List (List Act)) (slot : Nat) :
    (Sched.fixed scripts).threads slot = {}
      ∨ ∃ script, scripts[slot]? = some script
        ∧ (Sched.fixed scripts).threads slot = { pc := .run, script } := by
  rw [Sched.fixed]
  cases hslot : scripts[slot]? with
  | none =>
      refine .inl ?_
      dsimp only
      rw [hslot]
  | some script =>
      refine .inr ⟨script, rfl, ?_⟩
      dsimp only
      rw [hslot]

/-! ### What a step can do -/

/-- In a lock call, before the real lock. -/
def Pc.AtGate : Pc → Prop
  | loadLc _ | loadCount .. | loadActive .. | loadOther .. | turn => True
  | _ => False

theorem Pc.Cleared.atGate {pc : Pc} {j : Nat} (hcleared : pc.Cleared false j) : pc.AtGate := by
  cases pc <;> trivial

theorem Pc.AtGate.alive {pc : Pc} (hgate : pc.AtGate) :
    pc ≠ .held ∧ pc ≠ .unborn ∧ pc ≠ .exited ∧ pc.new = none := by
  cases pc <;> simp_all [AtGate, Pc.new]

/-- The steps of a thread, by what they change for the others. -/
inductive Moves (program : Program) (state : Sched) (slot : Nat) : Sched → Prop where
  | stay : Moves program state slot state
  | scan {pc : Pc} (hto : pc.AtGate)
      (hfrom : (state.threads slot).pc.AtGate ∨ ((state.threads slot).pc = .run
        ∧ (state.threads slot).depth = 0
        ∧ ∃ lock shared rest, (state.threads slot).script = .lock lock shared :: rest)) :
      Moves program state slot (state.set slot { state.threads slot with pc })
  | inside {script : List Act} {depth : Nat} {holders : Nat → List (Nat × Bool)}
      (hpc : (state.threads slot).pc = .run)
      (hscript : ∃ act, (state.threads slot).script = act :: script)
      (hleft : gated depth script = state.left slot) :
      Moves program state slot { state.set slot { pc := .run, script, depth } with holders }
  | exit (hpc : (state.threads slot).pc = .run) (hscript : (state.threads slot).script = []) :
      Moves program state slot (state.exit slot (state.threads slot))
  | fetch {body : Nat} {rest : List Act} (hpc : (state.threads slot).pc = .run)
      (hscript : (state.threads slot).script = .create body :: rest)
      (hmax : state.nextSlot < maxThreads) :
      Moves program state slot
        { state.set slot { state.threads slot with pc := .storeLc state.nextSlot } with
          nextSlot := state.nextSlot + 1 }
  | enter {lock : Nat} {shared : Bool} {rest : List Act} {holders : Nat → List (Nat × Bool)}
      (hpc : (state.threads slot).pc = .turn)
      (hscript : (state.threads slot).script = .lock lock shared :: rest) :
      Moves program state slot
        { state.set slot { pc := .held, script := rest, depth := (state.threads slot).depth + 1 } with
          holders
          acquired := state.acquired ++ [(slot, lock)] }
  | advance (hpc : (state.threads slot).pc = .held) :
      Moves program state slot (state.advance slot (state.threads slot))
  | storeLc {new : Nat} (hpc : (state.threads slot).pc = .storeLc new) :
      Moves program state slot
        { state.set slot { state.threads slot with pc := .storeActive new } with
          lc := Function.update state.lc new 0 }
  | register {new body : Nat} {rest : List Act} (hpc : (state.threads slot).pc = .storeActive new)
      (hscript : (state.threads slot).script = .create body :: rest) :
      Moves program state slot
        { (state.set slot { state.threads slot with pc := .spawn new, script := rest }).set new
            { script := program.body body } with
          active := Function.update state.active new true
          registered := state.registered + 1 }
  | spawn {new : Nat} (hpc : (state.threads slot).pc = .spawn new) :
      Moves program state slot
        ((state.set slot { state.threads slot with pc := .run }).set new
          { state.threads new with pc := .run })

theorem moves_step (program : Program) (state : Sched) (slot : Nat) :
    Moves program state slot (state.step program slot) := by
  rw [Sched.step]
  cases hpc : (state.threads slot).pc with
  | unborn | exited => exact .stay
  | run =>
      dsimp only
      split
      · rename_i hscript
        exact .exit hpc hscript
      · rename_i lock shared rest hscript
        rw [Sched.callLock]
        split
        · rename_i hdepth
          exact .scan trivial (.inr ⟨hpc, hdepth, lock, shared, rest, hscript⟩)
        split
        · rename_i hdepth _
          obtain ⟨depth, hsucc⟩ := Nat.exists_eq_succ_of_ne_zero hdepth
          have hinside := @Moves.inside program state slot rest ((state.threads slot).depth + 1)
            (Function.update state.holders lock ((slot, shared) :: state.holders lock)) hpc
            ⟨_, hscript⟩ (by rw [Sched.left, hscript, hsucc]; rfl)
          rw [← hpc] at hinside
          exact hinside
        · exact .stay
      · rename_i lock rest hscript
        have hinside := @Moves.inside program state slot rest ((state.threads slot).depth - 1)
          (state.release slot lock).holders hpc ⟨_, hscript⟩
          (by rw [Sched.left, hscript]; cases (state.threads slot).depth <;> rfl)
        rw [← hpc] at hinside
        exact hinside
      · rename_i body rest hscript
        rw [Sched.callCreate]
        split
        · rename_i hmax
          exact .fetch hpc hscript hmax
        · exact .stay
  | loadLc spins => exact .scan trivial (.inl (by rw [hpc]; trivial))
  | loadCount spins mylc => exact .scan trivial (.inl (by rw [hpc]; trivial))
  | loadActive spins mylc count i =>
      dsimp only
      split
      · exact .scan trivial (.inl (by rw [hpc]; trivial))
      split <;> exact .scan trivial (.inl (by rw [hpc]; trivial))
  | loadOther spins mylc count i =>
      dsimp only
      split
      · rw [Sched.retry]
        split <;> exact .scan trivial (.inl (by rw [hpc]; trivial))
      · exact .scan trivial (.inl (by rw [hpc]; trivial))
  | turn =>
      dsimp only
      rw [Sched.enter]
      split
      · rename_i lock shared rest hscript
        split
        · exact .enter hpc hscript
        · exact .stay
      · exact .stay
  | held => exact .advance hpc
  | storeLc new => exact .storeLc hpc
  | storeActive new =>
      dsimp only
      rw [Sched.register]
      split
      · rename_i body rest hscript
        exact .register hpc hscript
      · exact .stay
  | spawn new => exact .spawn hpc

/-! ### The gate -/

/-- Whoever a thread has cleared is inactive or comes after it. -/
structure Gate (strict : Bool) (state : Sched) : Prop where
  cleared : ∀ slot j, j ≠ slot → (state.threads slot).pc.Cleared strict j → state.active j = true →
    Before (state.lc slot, slot) (state.lc j, j)
  loaded : ∀ slot, ∀ mylc ∈ (state.threads slot).pc.mylc, mylc = state.lc slot
  fresh : ∀ j, state.nextSlot ≤ j → state.active j = false

namespace Gate

variable {program : Program} {strict : Bool} {state : Sched} {slot : Nat}

/-- The step of a thread that changes nothing but its own record. -/
theorem set (hgate : Gate strict state) {thread : Thread}
    (hcleared : ∀ j, j ≠ slot → thread.pc.Cleared strict j → state.active j = true →
      Before (state.lc slot, slot) (state.lc j, j))
    (hloaded : ∀ mylc ∈ thread.pc.mylc, mylc = state.lc slot) :
    Gate strict (state.set slot thread) := by
  refine ⟨?_, ?_, hgate.fresh⟩
  · intro other j hne hother hactive
    by_cases heq : other = slot
    · subst heq
      rw [Sched.threads_set_self] at hother
      exact hcleared j hne hother hactive
    · rw [Sched.threads_set_of_ne heq] at hother
      exact hgate.cleared other j hne hother hactive
  · intro other mylc hmylc
    by_cases heq : other = slot
    · subst heq
      rw [Sched.threads_set_self] at hmylc
      exact hloaded mylc hmylc
    · rw [Sched.threads_set_of_ne heq] at hmylc
      exact hgate.loaded other mylc hmylc

/-- The same for a thread that does not scan. -/
theorem set_of_idle (hgate : Gate strict state) {thread : Thread}
    (hcleared : ∀ j, ¬ thread.pc.Cleared strict j) (hloaded : thread.pc.mylc = none) :
    Gate strict (state.set slot thread) := by
  refine hgate.set (fun j _ hj => absurd hj (hcleared j)) ?_
  rw [hloaded]
  exact fun mylc hmem => absurd hmem (Option.not_mem_none mylc)

theorem exit (hgate : Gate strict state) : Gate strict (state.exit slot (state.threads slot)) := by
  obtain ⟨hcleared, hloaded, hfresh⟩ := @set_of_idle strict state slot hgate
    { state.threads slot with pc := .exited } (fun _ => id) rfl
  have hstill : ∀ j, Function.update state.active slot false j = true → state.active j = true := by
    intro j hactive
    by_cases heq : j = slot
    · rw [heq, Function.update_self] at hactive
      cases hactive
    · rwa [Function.update_of_ne heq] at hactive
  refine ⟨fun other j hne hother hactive => hcleared other j hne hother (hstill j hactive), hloaded, ?_⟩
  intro j hle
  cases hactive : (state.exit slot (state.threads slot)).active j with
  | false => rfl
  | true => exact absurd (hstill j hactive) (by rw [hgate.fresh j hle]; decide)

theorem advance (hgate : Gate strict state) : Gate strict (state.advance slot (state.threads slot)) := by
  obtain ⟨hcleared, hloaded, hfresh⟩ := @set_of_idle strict state slot hgate
    { state.threads slot with pc := .run } (fun _ => id) rfl
  have hidle : ∀ other, (∃ j, ((state.set slot { state.threads slot with pc := .run }).threads
      other).pc.Cleared strict j) → other ≠ slot := by
    rintro other ⟨j, hj⟩ rfl
    rw [Sched.threads_set_self] at hj
    exact hj
  refine ⟨?_, ?_, hfresh⟩
  · intro other j hne hother hactive
    have hbefore := hcleared other j hne hother hactive
    have hself := hidle other ⟨j, hother⟩
    simp only [Sched.advance, Function.update_of_ne hself]
    refine hbefore.mono ?_
    by_cases heq : j = slot
    · rw [heq, Function.update_self]
      exact Nat.le_succ _
    · rw [Function.update_of_ne heq]
      exact Nat.le_refl _
  · intro other mylc hmylc
    by_cases heq : other = slot
    · subst heq
      simp [Sched.advance, Sched.set, Pc.mylc] at hmylc
    · have hold := hloaded other mylc hmylc
      simp only [Sched.advance, Function.update_of_ne heq]
      exact hold

theorem storeLc (hgate : Gate strict state) {thread : Thread} {new : Nat}
    (hcleared : ∀ j, ¬ thread.pc.Cleared strict j) (hloaded : thread.pc.mylc = none)
    (hne : new ≠ slot) (hinactive : state.active new = false)
    (hunborn : (state.threads new).pc = .unborn) :
    Gate strict { state.set slot thread with lc := Function.update state.lc new 0 } := by
  obtain ⟨hset, hsetLoaded, hfresh⟩ := @set_of_idle strict state slot hgate thread hcleared hloaded
  have hthread : ((state.set slot thread).threads new).pc = .unborn := by
    rw [Sched.threads_set_of_ne hne, hunborn]
  refine ⟨?_, ?_, hfresh⟩
  · intro other j hj hother hactive
    have hother' : other ≠ new := by
      rintro rfl
      rw [hthread] at hother
      exact hother
    have hj' : j ≠ new := by
      rintro rfl
      exact Bool.false_ne_true (hinactive.symm.trans hactive)
    simp only [Function.update_of_ne hother', Function.update_of_ne hj']
    exact hset other j hj hother hactive
  · intro other mylc hmylc
    have hother' : other ≠ new := by
      rintro rfl
      rw [hthread] at hmylc
      cases hmylc
    simp only [Function.update_of_ne hother']
    exact hsetLoaded other mylc hmylc

theorem register (hgate : Gate strict state) {new : Nat} (hnew : new < state.nextSlot)
    (hpc : (state.threads slot).pc = .storeActive new)
    (hactivate : ∀ other, other ≠ new → (state.threads other).pc.Cleared strict new →
      Before (state.lc other, other) (state.lc new, new)) :
    Gate strict (state.register program slot (state.threads slot) new) := by
  rw [Sched.register]
  split
  · rename_i body rest hscript
    have hspawn := @set_of_idle strict state slot hgate
      { state.threads slot with pc := .spawn new, script := rest } (fun _ => id) rfl
    obtain ⟨hset, hloaded, hfresh⟩ := @set_of_idle strict _ new hspawn
      { script := program.body body } (fun _ => id) rfl
    refine ⟨?_, hloaded, ?_⟩
    · intro other j hj hother hactive
      by_cases heq : j = new
      · subst heq
        have hself : other ≠ slot := by
          rintro rfl
          simp only [Sched.set, Function.update_of_ne (Ne.symm hj), Function.update_self] at hother
          exact hother
        simp only [Sched.set, Function.update_of_ne (Ne.symm hj), Function.update_of_ne hself] at hother
        exact hactivate other (Ne.symm hj) hother
      · simp only [Function.update_of_ne heq] at hactive
        exact hset other j hj hother hactive
    · intro j hle
      have hne : j ≠ new := by
        rintro rfl
        exact absurd hle (Nat.not_le.mpr hnew)
      simp only [Function.update_of_ne hne]
      exact hfresh j hle
  · exact hgate

/-- Who holds which lock does not matter to the gate. -/
theorem locks (hgate : Gate strict state) (holders : Nat → List (Nat × Bool)) :
    Gate strict { state with holders } :=
  ⟨hgate.cleared, hgate.loaded, hgate.fresh⟩

theorem callLock (hgate : Gate strict state) (hpc : (state.threads slot).pc = .run) (lock : Nat)
    (shared : Bool) (rest : List Act) :
    Gate strict (state.callLock slot (state.threads slot) lock shared rest) := by
  rw [Sched.callLock]
  split
  · exact hgate.set_of_idle (fun _ => id) rfl
  split
  · refine set_of_idle (hgate.locks _) ?_ ?_
    · rw [hpc]
      exact fun _ => id
    · rw [hpc]
      rfl
  · exact hgate

theorem callUnlock (hgate : Gate strict state) (hpc : (state.threads slot).pc = .run) (lock : Nat)
    (rest : List Act) : Gate strict (state.callUnlock slot (state.threads slot) lock rest) := by
  refine set_of_idle (hgate.locks _) ?_ ?_
  · rw [hpc]
    exact fun _ => id
  · rw [hpc]
    rfl

theorem callCreate (hgate : Gate strict state) :
    Gate strict (state.callCreate slot (state.threads slot)) := by
  rw [Sched.callCreate]
  split
  · obtain ⟨hset, hloaded, hfresh⟩ := @set_of_idle strict state slot hgate
      { state.threads slot with pc := .storeLc state.nextSlot } (fun _ => id) rfl
    exact ⟨hset, hloaded, fun j hle => hfresh j (Nat.le_of_succ_le hle)⟩
  · exact hgate

section Scan

variable {spins mylc count i : Nat}

/-- The number of slots is loaded: nobody beyond it is active. -/
theorem loadCount (hgate : Gate strict state) (hpc : (state.threads slot).pc = .loadCount spins mylc) :
    Gate strict (state.set slot
      { state.threads slot with pc := .loadActive spins mylc state.nextSlot 0 }) := by
  have hmylc := hgate.loaded slot
  rw [hpc] at hmylc
  refine hgate.set ?_ hmylc
  intro j _ hj hactive
  obtain hlt | hle := hj
  · exact absurd hlt (Nat.not_lt_zero j)
  · exact absurd hactive (by rw [hgate.fresh j hle]; decide)

/-- The scan is over: whoever there is, is cleared. -/
theorem scanned (hgate : Gate strict state)
    (hpc : (state.threads slot).pc = .loadActive spins mylc count i) (hdone : count ≤ i) :
    Gate strict (state.set slot { state.threads slot with pc := .turn }) := by
  have hold := hgate.cleared slot
  rw [hpc] at hold
  refine hgate.set ?_ (fun _ hmem => by cases hmem)
  intro j hne _ hactive
  exact hold j hne (by by_cases hlt : j < i <;> [exact .inl hlt; exact .inr (by omega)]) hactive

/-- A slot is passed over: it is the thread's own, inactive, or behind the thread. -/
theorem pass (hgate : Gate strict state)
    (hcleared : ∀ j, j ≠ slot → j < i ∨ count ≤ j → state.active j = true →
      Before (state.lc slot, slot) (state.lc j, j))
    (hmylc : ∀ loaded ∈ (Pc.loadActive spins mylc count (i + 1)).mylc, loaded = state.lc slot)
    (hpass : i ≠ slot → state.active i = true → Before (state.lc slot, slot) (state.lc i, i)) :
    Gate strict (state.set slot
      { state.threads slot with pc := .loadActive spins mylc count (i + 1) }) := by
  refine hgate.set ?_ hmylc
  intro j hne hj hactive
  by_cases heq : j = i
  · subst heq
    exact hpass hne hactive
  · exact hcleared j hne (hj.imp_left fun hlt => by omega) hactive

theorem loadActive (hgate : Gate strict state)
    (hpc : (state.threads slot).pc = .loadActive spins mylc count i) :
    Gate strict (state.step program slot) := by
  have hold := hgate.cleared slot
  have hmylc := hgate.loaded slot
  rw [hpc] at hold hmylc
  rw [Sched.step, hpc]
  dsimp only
  split
  · rename_i hdone
    exact hgate.scanned hpc hdone
  split
  · rename_i hskip
    refine hgate.pass hold hmylc fun hne hactive => ?_
    obtain hself | hinactive := hskip
    · exact absurd hself hne
    · exact absurd hactive (by rw [hinactive]; decide)
  · exact hgate.set hold hmylc

theorem loadOther (hspin : program.spinCap = 0) (hgate : Gate strict state)
    (hpc : (state.threads slot).pc = .loadOther spins mylc count i) :
    Gate strict (state.step program slot) := by
  have hold := hgate.cleared slot
  have hmylc := hgate.loaded slot
  rw [hpc] at hold hmylc
  have hown : mylc = state.lc slot := hmylc mylc rfl
  rw [Sched.step, hpc]
  dsimp only
  split
  · rw [Sched.retry, hspin, if_neg fun hcap => absurd hcap.1 (Nat.lt_irrefl 0)]
    exact hgate.set_of_idle (fun _ => id) rfl
  · rename_i hafter
    refine hgate.pass hold hmylc fun hne _ => ?_
    unfold Before
    dsimp only
    omega

end Scan

theorem enter (hgate : Gate strict state) (hpc : (state.threads slot).pc = .turn) :
    Gate strict (state.enter slot (state.threads slot)) := by
  have hold := hgate.cleared slot
  rw [hpc] at hold
  rw [Sched.enter]
  split
  · split
    · obtain ⟨hcleared, hloaded, hfresh⟩ := @set strict _ slot (hgate.locks _) ⟨.held, _, _⟩
        (fun j hne _ => hold j hne trivial) (fun _ hmem => by cases hmem)
      exact ⟨hcleared, hloaded, hfresh⟩
    · exact hgate
  · exact hgate

/-- **The step lemma of the gate.** What a new slot needs is that nobody who has cleared it comes
after it. -/
theorem step (hspin : program.spinCap = 0) (hgate : Gate strict state) (slot : Nat)
    (hnew : ∀ new ∈ (state.threads slot).pc.new,
      new < state.nextSlot ∧ (state.threads new).pc = .unborn)
    (hstore : ∀ new, (state.threads slot).pc = .storeLc new → state.active new = false)
    (hactivate : ∀ new, (state.threads slot).pc = .storeActive new → ∀ other, other ≠ new →
      (state.threads other).pc.Cleared strict new →
        Before (state.lc other, other) (state.lc new, new)) :
    Gate strict (state.step program slot) := by
  cases hpc : (state.threads slot).pc with
  | loadActive spins mylc count i => exact hgate.loadActive hpc
  | loadOther spins mylc count i => exact hgate.loadOther hspin hpc
  | unborn | exited =>
      rw [Sched.step, hpc]
      exact hgate
  | run =>
      rw [Sched.step, hpc]
      dsimp only
      split
      · exact hgate.exit
      · exact hgate.callLock hpc _ _ _
      · exact hgate.callUnlock hpc _ _
      · exact hgate.callCreate
  | loadLc spins =>
      rw [Sched.step, hpc]
      refine hgate.set (fun _ _ => False.elim) ?_
      intro mylc hmem
      exact (Option.some.inj hmem).symm
  | loadCount spins mylc =>
      rw [Sched.step, hpc]
      exact hgate.loadCount hpc
  | turn =>
      rw [Sched.step, hpc]
      exact hgate.enter hpc
  | held =>
      rw [Sched.step, hpc]
      exact hgate.advance
  | storeLc new =>
      obtain ⟨-, hunborn⟩ := hnew new (by rw [hpc]; rfl)
      have hne : new ≠ slot := by
        rintro rfl
        rw [hpc] at hunborn
        cases hunborn
      rw [Sched.step, hpc]
      exact hgate.storeLc (fun _ => id) rfl hne (hstore new hpc) hunborn
  | storeActive new =>
      obtain ⟨hlt, -⟩ := hnew new (by rw [hpc]; rfl)
      rw [Sched.step, hpc]
      exact hgate.register hlt hpc (hactivate new hpc)
  | spawn new =>
      have hrun := @set_of_idle strict state slot hgate { state.threads slot with pc := .run }
        (fun _ => id) rfl
      rw [Sched.step, hpc]
      exact hrun.set_of_idle (fun _ => id) rfl

/-- At the start nobody scans. -/
theorem fixed (strict : Bool) (scripts : List (List Act)) : Gate strict (Sched.fixed scripts) := by
  refine ⟨?_, ?_, fun j hle => decide_eq_false (Nat.not_lt.mpr hle)⟩
  · intro slot j _ hcleared
    obtain hnone | ⟨script, -, hscript⟩ := Sched.threads_fixed scripts slot
    · rw [hnone] at hcleared
      exact hcleared.elim
    · rw [hscript] at hcleared
      exact hcleared.elim
  · intro slot mylc hmylc
    obtain hnone | ⟨script, -, hscript⟩ := Sched.threads_fixed scripts slot
    · rw [hnone] at hmylc
      cases hmylc
    · rw [hscript] at hmylc
      cases hmylc

end Gate

/-! ### Counting acquisitions -/

section Stamps

variable {acquired : List (Nat × Nat)}

theorem countOf_concat (acquired : List (Nat × Nat)) (slot lock other : Nat) :
    countOf (acquired ++ [(slot, lock)]) other
      = countOf acquired other + if slot = other then 1 else 0 := by
  simp [countOf, List.countP_append, List.countP_singleton]

theorem stamps_concat (earlier acquired : List (Nat × Nat)) (last : Nat × Nat) :
    stamps earlier (acquired ++ [last])
      = stamps earlier acquired ++ [(countOf (earlier ++ acquired) last.1, last.1)] := by
  induction acquired generalizing earlier with
  | nil => simp [stamps]
  | cons first acquired ih =>
      rw [List.cons_append, stamps, ih, stamps, List.cons_append, List.append_assoc]
      rfl

/-- A stamp counts fewer acquisitions than there are. -/
theorem lt_countOf_of_mem_stamps {stamp : Nat × Nat} (hstamp : stamp ∈ stamps [] acquired) :
    stamp.1 < countOf acquired stamp.2 := by
  induction acquired using List.reverseRecOn with
  | nil => exact absurd hstamp List.not_mem_nil
  | append_singleton acquired last ih =>
      rw [stamps_concat, List.nil_append] at hstamp
      rw [countOf_concat]
      obtain hstamp | hstamp := List.mem_append.mp hstamp
      · exact Nat.lt_add_right _ (ih hstamp)
      · rw [List.mem_singleton.mp hstamp]
        simp

end Stamps

/-! ### A fixed set of threads -/

/-- No thread creates another, clocks count acquisitions, and every acquisition comes before the
clock of every thread that is still there. -/
structure Fixed (state : Sched) : Prop where
  settled : ∀ slot, (state.threads slot).pc.new = none
    ∧ ∀ body, Act.create body ∉ (state.threads slot).script
  awake : ∀ slot, (state.threads slot).pc = .unborn ∨ (state.threads slot).pc = .exited
    ∨ state.active slot = true
  count : ∀ slot, countOf state.acquired slot
    = state.lc slot + if (state.threads slot).pc = .held then 1 else 0
  ahead : ∀ slot j, j ≠ slot → state.active slot = true → 0 < countOf state.acquired j →
    Before (countOf state.acquired j - 1, j) (state.lc slot, slot)
  sorted : (stamps [] state.acquired).Pairwise Before

namespace Fixed

variable {program : Program} {state next : Sched} {slot : Nat}

/-- A step that only changes the record of a thread that goes on. -/
theorem set (hfixed : Fixed state) {thread : Thread} (hactive : state.active slot = true)
    (hheld : thread.pc = .held ↔ (state.threads slot).pc = .held) (hnew : thread.pc.new = none)
    (hscript : ∀ body, Act.create body ∉ thread.script) : Fixed (state.set slot thread) := by
  refine ⟨?_, ?_, ?_, hfixed.ahead, hfixed.sorted⟩
  · intro other
    by_cases heq : other = slot
    · subst heq
      rw [Sched.threads_set_self]
      exact ⟨hnew, hscript⟩
    · rw [Sched.threads_set_of_ne heq]
      exact hfixed.settled other
  · intro other
    by_cases heq : other = slot
    · subst heq
      exact .inr (.inr hactive)
    · rw [Sched.threads_set_of_ne heq]
      exact hfixed.awake other
  · intro other
    refine (hfixed.count other).trans (congrArg (state.lc other + ·) ?_)
    by_cases heq : other = slot
    · subst heq
      rw [Sched.threads_set_self]
      exact if_congr hheld.symm rfl rfl
    · rw [Sched.threads_set_of_ne heq]

/-- Whoever is somewhere in its script is active. -/
theorem active (hfixed : Fixed state) {pc : Pc} (hpc : (state.threads slot).pc = pc)
    (hunborn : pc ≠ .unborn) (hexited : pc ≠ .exited) : state.active slot = true := by
  subst hpc
  obtain hpc | hpc | hactive := hfixed.awake slot
  exacts [absurd hpc hunborn, absurd hpc hexited, hactive]

theorem exit (hfixed : Fixed state) (hpc : (state.threads slot).pc = .run) :
    Fixed (state.exit slot (state.threads slot)) := by
  have hthere := hfixed.active hpc (by decide) (by decide)
  have hset := @set state slot hfixed { state.threads slot with pc := .exited } hthere
    (iff_of_false (by simp) (by rw [hpc]; decide)) rfl (hfixed.settled slot).2
  have hstill : ∀ other, (state.exit slot (state.threads slot)).active other = true →
      state.active other = true := by
    intro other hother
    by_cases heq : other = slot
    · rw [heq]
      exact hthere
    · simp only [Sched.exit, Function.update_of_ne heq] at hother
      exact hother
  refine ⟨hset.settled, ?_, hset.count, ?_, hset.sorted⟩
  · intro other
    by_cases heq : other = slot
    · subst heq
      refine .inr (.inl ?_)
      simp [Sched.exit, Sched.set]
    · obtain hunborn | hexited | hother := hset.awake other
      · exact .inl hunborn
      · exact .inr (.inl hexited)
      · refine .inr (.inr ?_)
        simp only [Sched.exit, Function.update_of_ne heq]
        exact hother
  · exact fun other j hne hother => hset.ahead other j hne (hstill other hother)

/-- The acquisition of the thread that has its turn comes behind all before it. -/
theorem sorted_concat (hfixed : Fixed state) (hpc : (state.threads slot).pc = .turn) (lock : Nat) :
    (stamps [] (state.acquired ++ [(slot, lock)])).Pairwise Before := by
  have hthere := hfixed.active hpc (by decide) (by decide)
  have hcount := hfixed.count slot
  rw [if_neg (by rw [hpc]; decide), Nat.add_zero] at hcount
  rw [stamps_concat, List.nil_append, List.pairwise_append]
  refine ⟨hfixed.sorted, List.pairwise_singleton _ _, ?_⟩
  intro stamp hstamp last hlast
  rw [List.mem_singleton.mp hlast]
  have hlt := lt_countOf_of_mem_stamps hstamp
  obtain ⟨earlier, j⟩ := stamp
  dsimp only at hlt ⊢
  by_cases heq : j = slot
  · subst heq
    exact .inl hlt
  · rw [hcount]
    have hahead := hfixed.ahead slot j heq hthere (by omega)
    exact hahead.anti (by omega)

/-- The thread that got its turn is before every other that is there. -/
theorem ahead_concat (hfixed : Fixed state) (hgate : Gate true state)
    (hpc : (state.threads slot).pc = .turn) (lock other j : Nat) (hne : j ≠ other)
    (hother : state.active other = true) (hpos : 0 < countOf (state.acquired ++ [(slot, lock)]) j) :
    Before (countOf (state.acquired ++ [(slot, lock)]) j - 1, j) (state.lc other, other) := by
  rw [countOf_concat] at hpos ⊢
  by_cases heq : j = slot
  · subst heq
    have hcount := hfixed.count j
    rw [if_neg (by rw [hpc]; decide), Nat.add_zero] at hcount
    rw [if_pos rfl, Nat.add_sub_cancel, hcount]
    exact hgate.cleared j other (Ne.symm hne) (by rw [hpc]; trivial) hother
  · rw [if_neg (Ne.symm heq), Nat.add_zero] at hpos ⊢
    exact hfixed.ahead other j hne hother hpos

theorem enter (hfixed : Fixed state) (hgate : Gate true state) {lock : Nat} {shared : Bool}
    {rest : List Act} (holders : Nat → List (Nat × Bool)) (hpc : (state.threads slot).pc = .turn)
    (hlock : (state.threads slot).script = .lock lock shared :: rest) :
    Fixed { state.set slot { pc := .held, script := rest, depth := (state.threads slot).depth + 1 } with
      holders
      acquired := state.acquired ++ [(slot, lock)] } := by
  refine ⟨?_, ?_, ?_, ?_, hfixed.sorted_concat hpc lock⟩
  · intro other
    by_cases heq : other = slot
    · subst heq
      have hscript := (hfixed.settled other).2
      rw [hlock] at hscript
      simp only [Sched.threads_set_self]
      exact ⟨rfl, fun body hmem => hscript body (List.mem_cons_of_mem _ hmem)⟩
    · simp only [Sched.threads_set_of_ne heq]
      exact hfixed.settled other
  · intro other
    by_cases heq : other = slot
    · subst heq
      exact .inr (.inr (hfixed.active hpc (by decide) (by decide)))
    · simp only [Sched.threads_set_of_ne heq]
      exact hfixed.awake other
  · intro other
    refine (countOf_concat state.acquired slot lock other).trans ?_
    by_cases heq : other = slot
    · subst heq
      have hcount := hfixed.count other
      rw [if_neg (by rw [hpc]; decide), Nat.add_zero] at hcount
      simp only [Sched.threads_set_self, if_true]
      exact congrArg (· + 1) hcount
    · simp only [Sched.threads_set_of_ne heq, if_neg (Ne.symm heq), Nat.add_zero]
      exact hfixed.count other
  · exact fun other j hne hother hpos => hfixed.ahead_concat hgate hpc lock other j hne hother hpos

theorem advance (hfixed : Fixed state) (hpc : (state.threads slot).pc = .held) :
    Fixed (state.advance slot (state.threads slot)) := by
  refine ⟨?_, ?_, ?_, ?_, hfixed.sorted⟩
  · intro other
    by_cases heq : other = slot
    · subst heq
      simp only [Sched.advance, Sched.threads_set_self]
      exact ⟨rfl, (hfixed.settled other).2⟩
    · simp only [Sched.advance, Sched.threads_set_of_ne heq]
      exact hfixed.settled other
  · intro other
    by_cases heq : other = slot
    · subst heq
      exact .inr (.inr (hfixed.active hpc (by decide) (by decide)))
    · simp only [Sched.advance, Sched.threads_set_of_ne heq]
      exact hfixed.awake other
  · intro other
    refine (hfixed.count other).trans ?_
    by_cases heq : other = slot
    · subst heq
      simp [Sched.advance, hpc]
    · simp only [Sched.advance, Sched.threads_set_of_ne heq, Function.update_of_ne heq]
  · intro other j hne hother hpos
    refine (hfixed.ahead other j hne hother hpos).mono ?_
    by_cases heq : other = slot
    · subst heq
      simp [Sched.advance]
    · simp [Sched.advance, heq]

/-- **The step lemma.** -/
theorem step (hfixed : Fixed state) (hgate : Gate true state)
    (hmoves : Moves program state slot next) : Fixed next := by
  have hscript := (hfixed.settled slot).2
  have hnone := (hfixed.settled slot).1
  cases hmoves with
  | stay => exact hfixed
  | scan hto hfrom =>
      obtain ⟨hheld, -, -, hnew⟩ := hto.alive
      have hold : (state.threads slot).pc ≠ .held ∧ state.active slot = true := by
        obtain hfrom | ⟨hpc, -⟩ := hfrom
        · obtain ⟨hheld, hunborn, hexited, -⟩ := hfrom.alive
          exact ⟨hheld, hfixed.active rfl hunborn hexited⟩
        · exact ⟨by rw [hpc]; decide, hfixed.active hpc (by decide) (by decide)⟩
      exact hfixed.set hold.2 (iff_of_false hheld hold.1) hnew hscript
  | @inside script depth holders hpc hact hleft =>
      obtain ⟨act, hact⟩ := hact
      rw [hact] at hscript
      have hset := @set state slot hfixed ⟨.run, script, depth⟩
        (hfixed.active hpc (by decide) (by decide)) (iff_of_false (by simp) (by rw [hpc]; decide)) rfl
        (fun body hmem => hscript body (List.mem_cons_of_mem act hmem))
      exact ⟨hset.settled, hset.awake, hset.count, hset.ahead, hset.sorted⟩
  | exit hpc hempty => exact hfixed.exit hpc
  | fetch hpc hcreate hmax => exact absurd (by rw [hcreate]; exact List.mem_cons_self) (hscript _)
  | @enter lock shared rest holders hpc hlock => exact hfixed.enter hgate holders hpc hlock
  | advance hpc => exact hfixed.advance hpc
  | storeLc hpc | register hpc hcreate | spawn hpc =>
      rw [hpc] at hnone
      cases hnone

theorem fixed {scripts : List (List Act)}
    (hscripts : ∀ script ∈ scripts, ∀ body, Act.create body ∉ script) :
    Fixed (Sched.fixed scripts) ∧ Gate true (Sched.fixed scripts) := by
  refine ⟨⟨?_, ?_, ?_, ?_, List.Pairwise.nil⟩, .fixed true scripts⟩
  · intro slot
    obtain hnone | ⟨script, hslot, hscript⟩ := Sched.threads_fixed scripts slot
    · rw [hnone]
      exact ⟨rfl, fun body => List.not_mem_nil⟩
    · rw [hscript]
      exact ⟨rfl, hscripts script (List.mem_of_getElem? hslot)⟩
  · intro slot
    obtain hnone | ⟨script, hslot, hscript⟩ := Sched.threads_fixed scripts slot
    · rw [hnone]
      exact .inl rfl
    · exact .inr (.inr (decide_eq_true (List.getElem?_eq_some_iff.mp hslot).1))
  · intro slot
    obtain hnone | ⟨script, -, hscript⟩ := Sched.threads_fixed scripts slot
    · rw [hnone]
      rfl
    · rw [hscript]
      rfl
  · intro slot j _ _ hpos
    exact absurd hpos (Nat.lt_irrefl 0)

theorem run {scripts : List (List Act)} (hspin : program.spinCap = 0)
    (hscripts : ∀ script ∈ scripts, ∀ body, Act.create body ∉ script) (schedule : List Nat) :
    Fixed (Run.run (Sched.step program) (Sched.fixed scripts) schedule)
      ∧ Gate true (Run.run (Sched.step program) (Sched.fixed scripts) schedule) := by
  have hany : Guarded (Sched.step program) (fun _ _ => True) (Sched.fixed scripts) schedule :=
    guarded_of_forall (fun _ _ => trivial) _ _
  refine invariant_run (fun state => Fixed state ∧ Gate true state) ?_ hany (fixed hscripts)
  rintro state slot - ⟨hfixed, hgate⟩
  refine ⟨hfixed.step hgate (moves_step program state slot), ?_⟩
  have hnone := (hfixed.settled slot).1
  refine hgate.step hspin slot ?_ ?_ ?_
  · rw [hnone]
    exact fun new hmem => absurd hmem (Option.not_mem_none new)
  · intro new hpc
    rw [hpc] at hnone
    cases hnone
  · intro new hpc
    rw [hpc] at hnone
    cases hnone

end Fixed

/-- The thread has left `await_turn` and not yet advanced. -/
def Sched.InTurn (state : Sched) (slot : Nat) : Prop :=
  (state.threads slot).pc = .turn ∨ (state.threads slot).pc = .held

/-- **Turns are exclusive and in the order of clocks.** With threads that are all there from the
start and create no others, at most one thread is between the gate and its advance, and the
acquisitions come in the order of the number of the thread's earlier ones, then of slots. -/
theorem locks_in_clock_order {program : Program} (hspin : program.spinCap = 0)
    {scripts : List (List Act)} (hscripts : ∀ script ∈ scripts, ∀ body, Act.create body ∉ script)
    (schedule : List Nat) :
    let state := Run.run (Sched.step program) (Sched.fixed scripts) schedule
    (∀ first second, state.InTurn first → state.InTurn second → first = second)
      ∧ (stamps [] state.acquired).Pairwise Before := by
  intro state
  obtain ⟨hfixed, hgate⟩ := Fixed.run hspin hscripts schedule
  refine ⟨?_, hfixed.sorted⟩
  have hcleared : ∀ slot j, state.InTurn slot → (state.threads slot).pc.Cleared true j := by
    rintro slot j (hpc | hpc) <;> rw [hpc]
    exacts [trivial, rfl]
  have hactive : ∀ slot, state.InTurn slot → state.active slot = true := by
    intro slot hturn
    obtain hunborn | hexited | hactive := hfixed.awake slot
    · obtain hpc | hpc := hturn <;> cases hpc.symm.trans hunborn
    · obtain hpc | hpc := hturn <;> cases hpc.symm.trans hexited
    · exact hactive
  intro first second hfirst hsecond
  by_contra hne
  have hbefore := hgate.cleared first second (Ne.symm hne) (hcleared first second hfirst)
    (hactive second hsecond)
  exact hbefore.asymm (hgate.cleared second first hne (hcleared second first hsecond)
    (hactive first hfirst))

/-- Two threads that take the same lock, one of them twice. -/
def twoThreads : List (List Act) :=
  [[.lock 7 false, .unlock 7], [.lock 7 true, .unlock 7, .lock 7 false, .unlock 7]]

/-- The threads step in turn. -/
def inTurn : List Nat := (List.range 80).map (· % 2)

theorem locks_in_clock_order_twoThreads :
    let state := Run.run (Sched.step ⟨fun _ => [], 0⟩) (Sched.fixed twoThreads) inTurn
    state.acquired = [(0, 7), (1, 7), (1, 7)] ∧ (stamps [] state.acquired).Pairwise Before :=
  ⟨by decide +kernel,
    (@locks_in_clock_order ⟨fun _ => [], 0⟩ rfl twoThreads (by simp [twoThreads]) inTurn).2⟩

end OneBarrier.Detsched
