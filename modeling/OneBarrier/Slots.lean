import OneBarrier.Lib.Run
import Mathlib.Logic.Function.Basic

/-!
# The slots of the scheduler

The deterministic scheduler over the life of a process: threads come and go, some are not created
through the library and register at their first call, and no slot is ever given back. Here the slot
numbers are the `int`s of the source, every load and store of the slots array is a step of its own,
and the real pthread calls return when the run says so and with what it says.
-/

namespace OneBarrier.Slots

/-- `MAXT`. -/
def maxt : Int32 := 1024

/-- The calls that are intercepted. `lock` is `pthread_mutex_lock`, `pthread_rwlock_rdlock` and
`pthread_rwlock_wrlock`, which do the same. -/
inductive Call where
  | lock
  | trylock
  | unlock
  | condWait
  | join
  | create (child : Nat)
  deriving DecidableEq

/-- Where a thread stands: outside the library, in `alloc_slot`, before the gate, in `await_turn`, in
a real call, or at a store to its own slot. -/
inductive Pc where
  | unborn
  | app
  | alloc (call : Call)
  | allocLc (slot : Int32) (call : Call)
  | allocActive (slot : Int32) (call : Call)
  | enter (call : Call)
  | loadLc (call : Call) (spins : Nat)
  | loadCount (call : Call) (spins : Nat) (mylc : Int64)
  | loadActive (call : Call) (spins : Nat) (mylc : Int64) (n i : Int32)
  | loadOther (call : Call) (spins : Nat) (mylc : Int64) (n i : Int32)
  | real (call : Call)
  | advance
  | park
  | wake
  | joinLoad
  | joinStore (prev : Bool)
  | joining (prev : Bool)
  | joinWake
  | spawn (child : Nat) (slot : Option Int32)
  | exit
  | dead
  deriving DecidableEq

structure Thread where
  pc : Pc := .unborn
  mySlot : Int32 := -1
  lockDepth : Nat := 0
  trampoline : Bool := false
  deriving DecidableEq

/-- `OB_DETSCHED` and `OB_DETSCHED_SPIN`. -/
structure Config where
  enabled : Bool
  spinCap : Int := 50000

/-- The slots array is memory: an index outside it reads what lies there. -/
structure Sched where
  lc : Int32 → Int64
  active : Int32 → Bool
  nextSlot : Int32
  threads : Nat → Thread

namespace Sched

def set (state : Sched) (tid : Nat) (thread : Thread) : Sched :=
  { state with threads := Function.update state.threads tid thread }

def storeLc (state : Sched) (slot : Int32) (lc : Int64) : Sched :=
  { state with lc := Function.update state.lc slot lc }

def storeActive (state : Sched) (slot : Int32) (active : Bool) : Sched :=
  { state with active := Function.update state.active slot active }

/-- `alloc_slot` returns, to `ensure_registered` or to `pthread_create`. -/
def allocated (state : Sched) (tid : Nat) (thread : Thread) (slot : Int32) : Call → Sched
  | .create child => state.set tid { thread with pc := .spawn child (some slot) }
  | call => state.set tid { thread with pc := .enter call, mySlot := slot }

/-- `ensure_registered`. -/
def ensureRegistered (state : Sched) (tid : Nat) (thread : Thread) (call : Call) : Sched :=
  if thread.mySlot < 0 then state.set tid { thread with pc := .alloc call }
  else state.set tid { thread with pc := .enter call }

/-- The application calls. -/
def begin (config : Config) (state : Sched) (tid : Nat) (thread : Thread) : Call → Sched
  | .lock => if config.enabled then state.ensureRegistered tid thread .lock else state
  | .trylock => if config.enabled then state.ensureRegistered tid thread .trylock else state
  | .unlock =>
      if config.enabled then
        state.set tid { thread with lockDepth := thread.lockDepth - 1 }
      else state
  | .condWait => state.ensureRegistered tid thread .condWait
  | .join => if config.enabled then state.set tid { thread with pc := .enter .join } else state
  | .create child =>
      if config.enabled then state.set tid { thread with pc := .alloc (.create child) }
      else state.set tid { thread with pc := .spawn child none }

/-- What a registered thread does first: `await_turn` if it holds no lock, or the store that takes it
out of the minimum. -/
def enter (config : Config) (state : Sched) (tid : Nat) (thread : Thread) (call : Call) : Sched :=
  let registered := config.enabled && 0 ≤ thread.mySlot
  match call with
  | .condWait => state.set tid { thread with pc := if registered then .park else .real call }
  | .join => state.set tid { thread with pc := if registered then .joinLoad else .real call }
  | _ =>
      state.set tid
        { thread with
          pc := if thread.lockDepth = 0 ∧ registered then .loadLc call 0 else .real call }

/-- Another thread comes first: another try, or no more of them. -/
def retry (config : Config) (state : Sched) (tid : Nat) (thread : Thread) (call : Call)
    (spins : Nat) : Sched :=
  if config.spinCap ≤ 0 then state.set tid { thread with pc := .loadLc call spins }
  else if config.spinCap ≤ spins + 1 then state.set tid { thread with pc := .real call }
  else state.set tid { thread with pc := .loadLc call (spins + 1) }

/-- A real call returns. A lock counts, and advances the clock if it is the first one held. -/
def return_ (config : Config) (state : Sched) (tid : Nat) (thread : Thread) (call : Call)
    (ok : Bool) : Sched :=
  let registered := config.enabled && 0 ≤ thread.mySlot
  match call with
  | .condWait => state.set tid { thread with pc := if registered then .wake else .app }
  | .join => state.set tid { thread with pc := .app }
  | call =>
      if call = .trylock ∧ !ok then state.set tid { thread with pc := .app }
      else
        state.set tid
          { thread with
            lockDepth := thread.lockDepth + 1
            pc := if thread.lockDepth = 0 ∧ registered then .advance else .app }

/-- The real `pthread_create`, if it succeeds: the trampoline sets the slot that the parent chose. -/
def spawn (state : Sched) (tid : Nat) (thread : Thread) (child : Nat) (slot : Option Int32)
    (ok : Bool) : Sched :=
  if ok ∧ (state.threads child).pc = .unborn then
    (state.set tid { thread with pc := .app }).set child
      { pc := .app, mySlot := slot.getD (-1), trampoline := slot.isSome }
  else state.set tid { thread with pc := .app }

/-- One step of a thread that is in the library. -/
def go (config : Config) (state : Sched) (tid : Nat) (ok : Bool) : Sched :=
  let thread := state.threads tid
  match thread.pc with
  | .unborn | .app | .dead => state
  | .alloc call =>
      let fetched := { state with nextSlot := state.nextSlot + 1 }
      if maxt ≤ state.nextSlot then fetched.allocated tid thread (-1) call
      else fetched.set tid { thread with pc := .allocLc state.nextSlot call }
  | .allocLc slot call =>
      (state.storeLc slot 0).set tid { thread with pc := .allocActive slot call }
  | .allocActive slot call => (state.storeActive slot true).allocated tid thread slot call
  | .enter call => state.enter config tid thread call
  | .loadLc call spins =>
      state.set tid { thread with pc := .loadCount call spins (state.lc thread.mySlot) }
  | .loadCount call spins mylc =>
      state.set tid { thread with pc := .loadActive call spins mylc state.nextSlot 0 }
  | .loadActive call spins mylc n i =>
      if n ≤ i then state.set tid { thread with pc := .real call }
      else if i = thread.mySlot ∨ state.active i = false then
        state.set tid { thread with pc := .loadActive call spins mylc n (i + 1) }
      else state.set tid { thread with pc := .loadOther call spins mylc n i }
  | .loadOther call spins mylc n i =>
      if state.lc i < mylc ∨ (state.lc i = mylc ∧ i < thread.mySlot) then
        state.retry config tid thread call spins
      else state.set tid { thread with pc := .loadActive call spins mylc n (i + 1) }
  | .real call => state.return_ config tid thread call ok
  | .advance =>
      (state.storeLc thread.mySlot (state.lc thread.mySlot + 1)).set tid { thread with pc := .app }
  | .park => (state.storeActive thread.mySlot false).set tid { thread with pc := .real .condWait }
  | .wake => (state.storeActive thread.mySlot true).set tid { thread with pc := .advance }
  | .joinLoad => state.set tid { thread with pc := .joinStore (state.active thread.mySlot) }
  | .joinStore prev =>
      (state.storeActive thread.mySlot false).set tid { thread with pc := .joining prev }
  | .joining prev =>
      state.set tid { thread with pc := if 0 ≤ thread.mySlot ∧ prev then .joinWake else .app }
  | .joinWake => (state.storeActive thread.mySlot true).set tid { thread with pc := .app }
  | .spawn child slot => state.spawn tid thread child slot ok
  | .exit => (state.storeActive thread.mySlot false).set tid { thread with pc := .dead }

end Sched

/-- A thread appears that the library has not created; a thread makes a call, or comes to the end of
its function; a thread takes a step in the library, where `ok` is what a real call returns. -/
inductive Event where
  | appear (tid : Nat)
  | call (tid : Nat) (call : Call)
  | finish (tid : Nat)
  | go (tid : Nat) (ok : Bool)
  deriving DecidableEq

namespace Sched

def step (config : Config) (state : Sched) : Event → Sched
  | .appear tid =>
      if (state.threads tid).pc = .unborn then state.set tid { pc := .app } else state
  | .call tid call =>
      if (state.threads tid).pc = .app then state.begin config tid (state.threads tid) call
      else state
  | .finish tid =>
      if (state.threads tid).pc = .app then
        state.set tid
          { state.threads tid with
            pc := if (state.threads tid).trampoline ∧ 0 ≤ (state.threads tid).mySlot then .exit
              else .dead }
      else state
  | .go tid ok => state.go config tid ok

/-- `detsched_init`. The array is zero, and `beyond` is the memory around it. -/
def init (config : Config) (beyond : Int32 → Int64 × Bool) : Sched where
  lc slot := if 0 ≤ slot ∧ slot < maxt then 0 else (beyond slot).1
  active slot :=
    if 0 ≤ slot ∧ slot < maxt then config.enabled && slot == 0 else (beyond slot).2
  nextSlot := if config.enabled then 1 else 0
  threads tid :=
    if tid = 0 then { pc := .app, mySlot := if config.enabled then 0 else -1 } else {}

/-- The index of the slots array that `await_turn`, `advance`, `pthread_cond_wait`, `pthread_join` or
the trampoline uses in the next step of a thread. -/
def index (state : Sched) (tid : Nat) : Option Int32 :=
  match (state.threads tid).pc with
  | .loadLc _ _ | .advance | .park | .wake | .joinLoad | .joinStore _ | .joinWake | .exit =>
      some (state.threads tid).mySlot
  | .loadActive _ _ _ n i =>
      if n ≤ i ∨ i = (state.threads tid).mySlot then none else some i
  | .loadOther _ _ _ _ i => some i
  | _ => none

end Sched

end OneBarrier.Slots
