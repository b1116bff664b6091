import Mathlib.Data.Finset.Basic
import Mathlib.Order.ConditionallyCompleteLattice.Finset
import Mathlib.Order.Lattice.Nat
import Mathlib.Logic.Function.Basic
import Mathlib.Logic.Relation

/-!
# The TLA+ specification of the total order

`OnePipeTotalOrder.tla`, for any set of processes with a total order and any clock bound. A message is
broadcast with its sender's clock; the network delays and reorders arrivals; a receiver raises its
barrier for a sender only once it has everything the sender sent below it, and delivers the smallest
message it holds below all its barriers.
-/

namespace OneBarrier.OnePipe

structure Msg (Proc : Type) where
  ts : Nat
  src : Proc
  deriving DecidableEq

/-- By timestamp, ties by source. -/
def Before {Proc : Type} [LinearOrder Proc] (first second : Msg Proc) : Prop :=
  first.ts < second.ts ∨ first.ts = second.ts ∧ first.src < second.src

instance {Proc : Type} [LinearOrder Proc] (first second : Msg Proc) :
    Decidable (Before first second) := inferInstanceAs (Decidable (_ ∨ _))

/-- The variables. `known r s` is the barrier `r` knows for `s`. -/
structure State (Proc : Type) where
  clock : Proc → Nat
  sent : Finset (Msg Proc)
  known : Proc → Proc → Nat
  buffer : Proc → Finset (Msg Proc)
  delivered : Proc → List (Msg Proc)

variable {Proc : Type} [LinearOrder Proc]

def init : State Proc where
  clock _ := 1
  sent := ∅
  known _ _ := 0
  buffer _ := ∅
  delivered _ := []

def Send (maxTs : Nat) (p : Proc) (state next : State Proc) : Prop :=
  state.clock p ≤ maxTs ∧
    next = { state with
      sent := insert { ts := state.clock p, src := p } state.sent
      clock := Function.update state.clock p (state.clock p + 1) }

/-- A beacon: the clock goes on without a message. -/
def Tick (maxTs : Nat) (p : Proc) (state next : State Proc) : Prop :=
  state.clock p ≤ maxTs ∧
    next = { state with clock := Function.update state.clock p (state.clock p + 1) }

def Receive (r : Proc) (m : Msg Proc) (state next : State Proc) : Prop :=
  m ∈ state.sent ∧ m ∉ state.buffer r ∧ m ∉ state.delivered r ∧
    next = { state with buffer := Function.update state.buffer r (insert m (state.buffer r)) }

/-- The FIFO gate: everything `s` sent below its clock has arrived. -/
def LearnBarrier (r s : Proc) (state next : State Proc) : Prop :=
  state.known r s < state.clock s ∧
    (∀ m ∈ state.sent, m.src = s → m.ts < state.clock s →
      m ∈ state.buffer r ∨ m ∈ state.delivered r) ∧
    next = { state with
      known := Function.update state.known r
        (Function.update (state.known r) s (state.clock s)) }

/-- The least of the barriers `r` knows. -/
noncomputable def barrier (state : State Proc) (r : Proc) : Nat := sInf (Set.range (state.known r))

def Deliver (r : Proc) (state next : State Proc) : Prop :=
  ∃ m ∈ state.buffer r, m.ts < barrier state r ∧
    (∀ other ∈ state.buffer r, other ≠ m → Before m other) ∧
    next = { state with
      buffer := Function.update state.buffer r ((state.buffer r).erase m)
      delivered := Function.update state.delivered r (state.delivered r ++ [m]) }

def Next (maxTs : Nat) (state next : State Proc) : Prop :=
  (∃ p, Send maxTs p state next) ∨ (∃ p, Tick maxTs p state next) ∨
    (∃ r m, (1 ≤ m.ts ∧ m.ts ≤ maxTs) ∧ Receive r m state next) ∨
    (∃ r s, LearnBarrier r s state next) ∨ ∃ r, Deliver r state next

def Reachable (maxTs : Nat) (state : State Proc) : Prop :=
  Relation.ReflTransGen (Next maxTs) init state

/-! ### The checked properties -/

/-- Every receiver delivers in the global order. -/
def Sorted (state : State Proc) : Prop := ∀ r, (state.delivered r).Pairwise Before

/-- No message a receiver has yet to deliver comes before one it has delivered. -/
def DownwardClosed (state : State Proc) : Prop :=
  ∀ r, ∀ m ∈ state.sent, m ∉ state.delivered r →
    ∀ delivered ∈ state.delivered r, ¬ Before m delivered

/-- A receiver's clock is above everything it has delivered. -/
def Causality (state : State Proc) : Prop :=
  ∀ r, ∀ m ∈ state.delivered r, m.ts < state.clock r

/-- Two receivers deliver what they both deliver in the same order. -/
def AgreeOrder (state : State Proc) : Prop :=
  ∀ r₁ r₂, ∀ m₁ m₂, m₁ ∈ state.delivered r₁ → m₁ ∈ state.delivered r₂ →
    m₂ ∈ state.delivered r₁ → m₂ ∈ state.delivered r₂ → Before m₁ m₂ →
      ¬ ∃ i j : Nat, (state.delivered r₂)[i]? = some m₂ ∧ (state.delivered r₂)[j]? = some m₁ ∧ i < j

end OneBarrier.OnePipe
