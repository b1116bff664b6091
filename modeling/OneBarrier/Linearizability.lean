import Mathlib.Data.List.Sort

/-!
# The linearizability checker

`linearizability.rs`: a search for an order of the operations of a register history. At each point the
operations that may come next are those called before the first return of what remains, and what has
been explored without success is remembered.
-/

namespace OneBarrier.Linearizability

inductive Action where
  | write (value : Int64)
  | read (value : Int64)
  deriving DecidableEq

/-- One operation with its real-time interval. -/
structure LinOp where
  procId : UInt32
  action : Action
  inv : UInt64
  res : UInt64
  deriving DecidableEq

/-- A call or a return of the operation with this index. -/
structure Entry where
  time : UInt64
  isCall : Bool
  id : Nat
  deriving DecidableEq

/-- By time, calls before returns at ties. -/
def Entry.le (first second : Entry) : Prop :=
  first.time < second.time ∨ first.time = second.time ∧ (second.isCall → first.isCall)

instance : DecidableRel Entry.le := fun _ _ => inferInstanceAs (Decidable (_ ∨ _))

/-- The calls and returns in the order they are pushed. -/
def unsorted (ops : List LinOp) : List Entry :=
  ops.zipIdx.flatMap fun (op, id) =>
    [{ time := op.inv, isCall := true, id }, { time := op.res, isCall := false, id }]

/-- Sorted, and as pushed where the comparison says nothing. -/
def sortedEntries (ops : List LinOp) : List Entry := (unsorted ops).insertionSort Entry.le

def valid (action : Action) (value : Int64) : Bool :=
  match action with
  | .write _ => true
  | .read expected => expected == value

def apply (action : Action) (value : Int64) : Int64 :=
  match action with
  | .write written => written
  | .read _ => value

/-- The remaining operations and the register's value, where the search has failed. -/
abbrev Memo := List (List Nat × Int64)

/-- The operations called before the first return among the remaining entries. -/
def candidates (remaining : List Nat) : List Entry → List Nat
  | [] => []
  | entry :: entries =>
      if entry.id ∈ remaining then
        if entry.isCall then entry.id :: candidates remaining entries else []
      else candidates remaining entries

/-- The loop over the candidates, up to the first that succeeds. -/
def attempt (ops : List LinOp) (search : List Nat → Int64 → Memo → Bool × Memo)
    (remaining : List Nat) (value : Int64) : List Nat → Memo → Bool × Memo
  | [], memo => (false, memo)
  | id :: ids, memo =>
      match ops[id]? with
      | none => attempt ops search remaining value ids memo
      | some op =>
          if valid op.action value then
            match search (remaining.filter (· ≠ id)) (apply op.action value) memo with
            | (true, memo) => (true, memo)
            | (false, memo) => attempt ops search remaining value ids memo
          else attempt ops search remaining value ids memo

/-- Each call has one operation less, so their number bounds the depth. -/
def recurse (ops : List LinOp) (entries : List Entry) :
    Nat → List Nat → Int64 → Memo → Bool × Memo
  | 0, remaining, _, memo => (remaining.isEmpty, memo)
  | depth + 1, remaining, value, memo =>
      if remaining = [] then (true, memo)
      else if (remaining, value) ∈ memo then (false, memo)
      else
        match attempt ops (recurse ops entries depth) remaining value
            (candidates remaining entries) memo with
        | (true, memo) => (true, memo)
        | (false, memo) => (false, (remaining, value) :: memo)

def isLinearizable (ops : List LinOp) (init : Int64) : Bool :=
  (recurse ops (sortedEntries ops) ops.length (List.range ops.length) init []).1

/-! ### What it decides -/

/-- The value of a write. -/
def written : Action → Option Int64
  | .write value => some value
  | .read _ => none

/-- Every read reads the latest write before it, or the initial value if there is none. -/
def ReadsLatest (init : Int64) (actions : List Action) : Prop :=
  ∀ before value after, actions = before ++ .read value :: after →
    value = ((before.filterMap written).getLast?).getD init

/-- The operations have an order that keeps real time and in which every read reads the latest
write. -/
def Linearizable (ops : List LinOp) (init : Int64) : Prop :=
  ∃ order : List LinOp, order.Perm ops
    ∧ order.Pairwise (fun earlier later => ¬ later.res < earlier.inv)
    ∧ ReadsLatest init (order.map LinOp.action)

end OneBarrier.Linearizability
