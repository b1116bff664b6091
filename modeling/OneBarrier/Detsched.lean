import OneBarrier.Lib.Run
import Mathlib.Logic.Function.Basic

/-!
# The deterministic scheduler

The library that is preloaded to make the order of critical sections a function of logical clocks.
Every thread has a slot with a clock; a lock that is taken while no other is held waits until the
thread's clock and slot are the least among the active ones, and then advances the clock. The wait
reads the slots one by one, so every load, store and lock is a step of its own, and a run is any
order of steps of the threads.

Next to the state stands what has happened: the acquisitions that went through the gate, and how many
slots have been registered.
-/

namespace OneBarrier.Detsched

/-- `MAXT`. -/
def maxThreads : Nat := 1024

/-- What a thread does next. A lock is a mutex or a read-write lock, taken for itself alone or, by
`pthread_rwlock_rdlock`, with other readers; a thread is created to run a body of the program. -/
inductive Act where
  | lock (lock : Nat) (shared : Bool)
  | unlock (lock : Nat)
  | create (body : Nat)
  deriving DecidableEq

namespace Act

def isLock : Act → Bool
  | lock _ _ => true
  | _ => false

def isCreate : Act → Bool
  | create _ => true
  | _ => false

end Act

/-- The program's thread bodies, and `OB_DETSCHED_SPIN`: after how many tries a thread goes on
without its turn, or `0` for never. -/
structure Program where
  body : Nat → List Act
  spinCap : Nat := 0

/-- Where a thread stands. In `await_turn` it holds the tries so far and what it has loaded of its
own clock and of `next_slot`. -/
inductive Pc where
  | unborn
  | run
  | loadLc (spins : Nat)
  | loadCount (spins mylc : Nat)
  | loadActive (spins mylc count i : Nat)
  | loadOther (spins mylc count i : Nat)
  | turn
  | held
  | storeLc (slot : Nat)
  | storeActive (slot : Nat)
  | spawn (slot : Nat)
  | exited
  deriving DecidableEq

structure Thread where
  pc : Pc := .unborn
  script : List Act := []
  depth : Nat := 0
  deriving DecidableEq

/-- The slots, the threads by slot, and who holds the real locks, with whether it shares them. The
clocks are a `long` and `next_slot` an `int` in the source, and neither is checked there: the model is
for runs in which no thread takes `2^63` locks and fewer than `2^31` slots are given out. -/
structure Sched where
  lc : Nat → Nat := fun _ => 0
  active : Nat → Bool := fun _ => false
  nextSlot : Nat := 0
  threads : Nat → Thread := fun _ => {}
  holders : Nat → List (Nat × Bool) := fun _ => []
  acquired : List (Nat × Nat) := []
  registered : Nat := 0

namespace Sched

def set (state : Sched) (slot : Nat) (thread : Thread) : Sched :=
  { state with threads := Function.update state.threads slot thread }

/-- The real lock can be taken. -/
def free (state : Sched) (lock : Nat) (shared : Bool) : Bool :=
  (state.holders lock).all fun holder => shared && holder.2

def take (state : Sched) (slot lock : Nat) (shared : Bool) : Sched :=
  { state with
    holders := Function.update state.holders lock ((slot, shared) :: state.holders lock) }

def release (state : Sched) (slot lock : Nat) : Sched :=
  { state with
    holders := Function.update state.holders lock
      ((state.holders lock).eraseP fun holder => holder.1 = slot) }

/-- A lock call: to the gate if no lock is held, else to the real lock at once. -/
def callLock (state : Sched) (slot : Nat) (thread : Thread) (lock : Nat) (shared : Bool)
    (rest : List Act) : Sched :=
  if thread.depth = 0 then state.set slot { thread with pc := .loadLc 0 }
  else if state.free lock shared then
    (state.take slot lock shared).set slot
      { thread with script := rest, depth := thread.depth + 1 }
  else state

/-- `pthread_mutex_unlock` and `pthread_rwlock_unlock`. -/
def callUnlock (state : Sched) (slot : Nat) (thread : Thread) (lock : Nat) (rest : List Act) : Sched :=
  (state.release slot lock).set slot { thread with script := rest, depth := thread.depth - 1 }

/-- `pthread_create` as far as `alloc_slot` has fetched the next slot. -/
def callCreate (state : Sched) (slot : Nat) (thread : Thread) : Sched :=
  if state.nextSlot < maxThreads then
    { state.set slot { thread with pc := .storeLc state.nextSlot } with
      nextSlot := state.nextSlot + 1 }
  else state

/-- The end of the trampoline. -/
def exit (state : Sched) (slot : Nat) (thread : Thread) : Sched :=
  { state.set slot { thread with pc := .exited } with
    active := Function.update state.active slot false }

/-- `await_turn` has found another thread before this one. -/
def retry (program : Program) (state : Sched) (slot : Nat) (thread : Thread) (spins : Nat) : Sched :=
  if 0 < program.spinCap ∧ program.spinCap ≤ spins + 1 then
    state.set slot { thread with pc := .turn }
  else state.set slot { thread with pc := .loadLc (spins + 1) }

/-- The real lock behind the gate. -/
def enter (state : Sched) (slot : Nat) (thread : Thread) : Sched :=
  match thread.script with
  | .lock lock shared :: rest =>
      if state.free lock shared then
        { (state.take slot lock shared).set slot
            { pc := .held, script := rest, depth := thread.depth + 1 } with
          acquired := state.acquired ++ [(slot, lock)] }
      else state
  | _ => state

def advance (state : Sched) (slot : Nat) (thread : Thread) : Sched :=
  { state.set slot { thread with pc := .run } with
    lc := Function.update state.lc slot (state.lc slot + 1) }

/-- The new slot becomes active; its thread has a body and has not been started. -/
def register (program : Program) (state : Sched) (slot : Nat) (thread : Thread) (new : Nat) : Sched :=
  match thread.script with
  | .create body :: rest =>
      { (state.set slot { thread with pc := .spawn new, script := rest }).set new
          { script := program.body body } with
        active := Function.update state.active new true
        registered := state.registered + 1 }
  | _ => state

/-- One step of the thread in a slot. -/
def step (program : Program) (state : Sched) (slot : Nat) : Sched :=
  let thread := state.threads slot
  match thread.pc with
  | .unborn | .exited => state
  | .run =>
      match thread.script with
      | [] => state.exit slot thread
      | .lock lock shared :: rest => state.callLock slot thread lock shared rest
      | .unlock lock :: rest => state.callUnlock slot thread lock rest
      | .create _ :: _ => state.callCreate slot thread
  | .loadLc spins => state.set slot { thread with pc := .loadCount spins (state.lc slot) }
  | .loadCount spins mylc =>
      state.set slot { thread with pc := .loadActive spins mylc state.nextSlot 0 }
  | .loadActive spins mylc count i =>
      if count ≤ i then state.set slot { thread with pc := .turn }
      else if i = slot ∨ state.active i = false then
        state.set slot { thread with pc := .loadActive spins mylc count (i + 1) }
      else state.set slot { thread with pc := .loadOther spins mylc count i }
  | .loadOther spins mylc count i =>
      if state.lc i < mylc ∨ (state.lc i = mylc ∧ i < slot) then
        state.retry program slot thread spins
      else state.set slot { thread with pc := .loadActive spins mylc count (i + 1) }
  | .turn => state.enter slot thread
  | .held => state.advance slot thread
  | .storeLc new =>
      { state.set slot { thread with pc := .storeActive new } with
        lc := Function.update state.lc new 0 }
  | .storeActive new => state.register program slot thread new
  | .spawn new =>
      (state.set slot { thread with pc := .run }).set new { state.threads new with pc := .run }

/-- Threads that are all registered and active, each with its script. -/
def fixed (scripts : List (List Act)) : Sched where
  active slot := slot < scripts.length
  nextSlot := scripts.length
  threads slot :=
    match scripts[slot]? with
    | some script => { pc := .run, script }
    | none => {}
  registered := scripts.length

/-- `detsched_init`: the main thread, in slot 0, runs body 0. -/
def init (program : Program) : Sched := fixed [program.body 0]

end Sched

/-! ### The order of acquisitions -/

/-- Clock and slot, compared as the gate compares them. -/
def Before (first second : Nat × Nat) : Prop :=
  first.1 < second.1 ∨ (first.1 = second.1 ∧ first.2 < second.2)

instance (first second : Nat × Nat) : Decidable (Before first second) :=
  inferInstanceAs (Decidable (_ ∨ _))

/-- How many of these acquisitions are a slot's. -/
def countOf (acquired : List (Nat × Nat)) (slot : Nat) : Nat :=
  acquired.countP fun acquisition => acquisition.1 = slot

/-- Every acquisition as the number of earlier ones of its thread and its slot, after those in
`earlier`. -/
def stamps (earlier : List (Nat × Nat)) : List (Nat × Nat) → List (Nat × Nat)
  | [] => []
  | acquisition :: later =>
      (countOf earlier acquisition.1, acquisition.1) :: stamps (earlier ++ [acquisition]) later

/-! ### Creating threads -/

/-- The calls of a script that concern other threads, from a depth on: the locks that go through the
gate, and the creations. -/
def gated : Nat → List Act → List Act
  | _, [] => []
  | 0, .lock lock shared :: rest => .lock lock shared :: gated 1 rest
  | depth + 1, .lock _ _ :: rest => gated (depth + 2) rest
  | depth, .unlock _ :: rest => gated (depth - 1) rest
  | depth, .create body :: rest => .create body :: gated depth rest

/-- Locks are taken one at a time, and threads are created with none held. -/
def paired : List Act → Bool
  | [] => true
  | .lock lock _ :: .unlock unlocked :: rest => lock = unlocked && paired rest
  | .create _ :: rest => paired rest
  | _ => false

namespace Sched

/-- What a thread has left to do. -/
def left (state : Sched) (slot : Nat) : List Act :=
  gated (state.threads slot).depth (state.threads slot).script

/-- The thread creates another before its next acquisition. -/
def Creating (state : Sched) (slot : Nat) : Prop := ∃ act ∈ (state.left slot).head?, act.isCreate

def Locking (state : Sched) (slot : Nat) : Prop := ∃ act ∈ state.left slot, act.isLock

instance (state : Sched) (slot : Nat) : Decidable (state.Creating slot) :=
  inferInstanceAs (Decidable (∃ act ∈ (state.left slot).head?, act.isCreate))

instance (state : Sched) (slot : Nat) : Decidable (state.Locking slot) :=
  inferInstanceAs (Decidable (∃ act ∈ state.left slot, act.isLock))

/-- While a thread is about to create another, no other thread is, and every other thread has not yet
been through the gate or is not going to again. -/
def Orderly (state : Sched) : Prop :=
  ∀ slot < state.registered, state.Creating slot → ∀ other < state.registered, other ≠ slot →
    ¬ state.Creating other ∧ (countOf state.acquired other = 0 ∨ ¬ state.Locking other)

instance (state : Sched) : Decidable state.Orderly :=
  Nat.decidableBallLT state.registered fun slot _ => state.Creating slot →
    ∀ other < state.registered, other ≠ slot →
      ¬ state.Creating other ∧ (countOf state.acquired other = 0 ∨ ¬ state.Locking other)

/-- Every registered thread has come to its end. -/
def Finished (state : Sched) : Prop :=
  ∀ slot < state.registered, (state.threads slot).pc = .exited

instance (state : Sched) : Decidable state.Finished :=
  inferInstanceAs (Decidable (∀ slot < state.registered, (state.threads slot).pc = .exited))

end Sched

/-- The state a schedule leads to. -/
def Program.reach (program : Program) (schedule : List Nat) : Sched :=
  Run.run (Sched.step program) (Sched.init program) schedule

/-- The run is orderly in every state it takes a step from. -/
def Program.Orderly (program : Program) (schedule : List Nat) : Prop :=
  Run.Guarded (Sched.step program) (fun state _ => state.Orderly) (Sched.init program) schedule

end OneBarrier.Detsched
