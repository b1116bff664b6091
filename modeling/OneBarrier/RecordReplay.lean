import OneBarrier.Interpose

/-!
# Recording and replaying results

Under `OB_RECORD` the shim appends the result of every clock and random call to a file, and under
`OB_REPLAY` of that file it answers the calls from it, in order and with one cursor for all of them.
An entry is a type byte and the result: the struct of a clock call, or the length and the bytes of a
random one. The virtual clock is off.
-/

namespace OneBarrier.Interpose

open Wire

inductive Query where
  | gettimeofday
  | clockGettime
  | time
  | getrandom (len : Nat)
  deriving DecidableEq

/-- What a call comes to: its return value, and what the caller finds in its struct or, as far as it
was filled, in its buffer. -/
structure Returned where
  result : Int64
  data : Bytes
  deriving DecidableEq

/-! ### Recording -/

/-- `rr_record_fixed`. -/
def recordFixed (type : UInt8) (data : Bytes) : Bytes := type :: data

/-- What a call appends to the file, given what the kernel returned. -/
def Query.record (query : Query) (returned : Returned) : Bytes :=
  match query with
  | gettimeofday => recordFixed 1 returned.data
  | clockGettime => recordFixed 2 returned.data
  | time => recordFixed 4 returned.data
  | getrandom _ =>
      if 0 < returned.result then
        3 :: (leBytes 4 returned.result.toInt.toNat ++ returned.data)
      else []

/-! ### Replaying -/

/-- The file, how far it has been read, and how often it did not fit. -/
structure Replayer where
  buf : Bytes
  cursor : Nat := 0
  diverged : Nat := 0
  deriving DecidableEq

namespace Replayer

def diverge (replayer : Replayer) : Replayer :=
  { replayer with diverged := replayer.diverged + 1 }

/-- `rr_replay_fixed`. -/
def replayFixed (replayer : Replayer) (type : UInt8) (len : Nat) : Option Bytes × Replayer :=
  if replayer.cursor + 1 + len ≤ replayer.buf.length
      ∧ replayer.buf[replayer.cursor]? = some type then
    (some ((replayer.buf.drop (replayer.cursor + 1)).take len),
      { replayer with cursor := replayer.cursor + (1 + len) })
  else (none, replayer.diverge)

/-- The entry of a random call. -/
def replayRandom (replayer : Replayer) (len : Nat) : Option Bytes × Replayer :=
  if replayer.cursor + 5 ≤ replayer.buf.length ∧ replayer.buf[replayer.cursor]? = some 3 then
    let recorded := leNat ((replayer.buf.drop (replayer.cursor + 1)).take 4)
    if replayer.cursor + 5 + recorded ≤ replayer.buf.length then
      (some ((replayer.buf.drop (replayer.cursor + 5)).take (min recorded len)),
        { replayer with cursor := replayer.cursor + (5 + recorded) })
    else (none, replayer.diverge)
  else (none, replayer.diverge)

/-- A call in replay mode. `kernel` is what the real call returns, should it come to that. -/
def replay (replayer : Replayer) (query : Query) (kernel : Returned) : Returned × Replayer :=
  match query with
  | .gettimeofday =>
      match replayer.replayFixed 1 16 with
      | (some data, replayer) => ({ result := 0, data }, replayer)
      | (none, replayer) => (kernel, replayer)
  | .clockGettime =>
      match replayer.replayFixed 2 16 with
      | (some data, replayer) => ({ result := 0, data }, replayer)
      | (none, replayer) => (kernel, replayer)
  | .time =>
      match replayer.replayFixed 4 8 with
      | (some data, replayer) => ({ result := ((i64 data).map Prod.fst).getD 0, data }, replayer)
      | (none, replayer) => (kernel, replayer)
  | .getrandom len =>
      match replayer.replayRandom len with
      | (some data, replayer) => ({ result := Int64.ofNat data.length, data }, replayer)
      | (none, replayer) => (kernel, replayer)

end Replayer

/-! ### Two runs -/

/-- One call of both runs: what the kernel returned when it was recorded, and what it returns when
the call is made again. -/
structure Exchange where
  query : Query
  recorded : Returned
  again : Returned
  deriving DecidableEq

/-- The kernel's side: a clock call leaves a struct of its size behind it, `time` both returns and
stores the seconds, and `getrandom` fails or fills as much of the buffer as it returns, at most what
fits an `int`. -/
def Exchange.Kernel (exchange : Exchange) : Prop :=
  match exchange.query with
  | .gettimeofday | .clockGettime => exchange.recorded.data.length = 16
  | .time => exchange.recorded.data = longLong exchange.recorded.result
  | .getrandom len =>
      (exchange.recorded.result = -1 ∧ exchange.recorded.data = [])
        ∨ (exchange.recorded.result.toInt = exchange.recorded.data.length
          ∧ exchange.recorded.data.length ≤ len ∧ exchange.recorded.data.length < 2 ^ 31)

instance (exchange : Exchange) : Decidable exchange.Kernel :=
  match exchange with
  | ⟨.gettimeofday, _, _⟩ | ⟨.clockGettime, _, _⟩ => inferInstanceAs (Decidable (_ = _))
  | ⟨.time, _, _⟩ => inferInstanceAs (Decidable (_ = _))
  | ⟨.getrandom _, _, _⟩ => inferInstanceAs (Decidable (_ ∨ _))

/-- The file the recording run leaves, flushed. -/
def recording (exchanges : List Exchange) : Bytes :=
  exchanges.flatMap fun exchange => exchange.query.record exchange.recorded

/-- The run on a file: what the calls return, and the replayer behind them. -/
def replayAll : Replayer → List Exchange → List Returned × Replayer
  | replayer, [] => ([], replayer)
  | replayer, exchange :: later =>
      let (returned, replayer) := replayer.replay exchange.query exchange.again
      let (rest, replayer) := replayAll replayer later
      (returned :: rest, replayer)

/-- The call succeeded: a clock call returned zero, a random call returned some bytes. -/
def Exchange.Succeeded (exchange : Exchange) : Prop :=
  match exchange.query with
  | .gettimeofday | .clockGettime => exchange.recorded.result = 0
  | .time => True
  | .getrandom _ => 0 < exchange.recorded.result

end OneBarrier.Interpose
