import OneBarrier.Lib.Reader
import Mathlib.Logic.Function.Basic

/-!
# The interception shim

The library that is preloaded into an unmodified server. It tees what the server reads on its
connections into a capture log, and under `OB_VCLOCK` it answers the server's clock calls from a
virtual clock that moves on those reads only. The files are what a later run finds; the shim's own
writes to them succeed.
-/

namespace OneBarrier.Interpose

open Wire

/-- The variables that are set: `OB_CAPTURE`, `OB_VCLOCK` and `OB_VCLOCK_DELTAS`. -/
structure Env where
  capture : Bool := false
  vclock : Bool := false
  deltas : Bool := false
  deriving DecidableEq

structure Files where
  capture : Option Bytes := none
  vclock : Option Bytes := none
  deltas : Option Bytes := none
  deriving DecidableEq

/-! ### The virtual clock -/

inductive DeltaMode where
  | fixed
  | record
  | replay
  deriving DecidableEq

structure Vclock where
  baseNs : Int64
  ticks : Int64 := 0
  mode : DeltaMode := .fixed
  deltaBuf : List Int64 := []
  deltaI : Nat := 0
  lastMonoNs : Int64 := 0
  deriving DecidableEq

/-- `VCLOCK_TICK_NS`. -/
def tickNs : Int64 := 1000000

def longLong (value : Int64) : Bytes := leBytes 8 value.toUInt64.toNat

/-- The base: read from the file if there is one, else the real time, which is then stored. -/
def initBase (realtime : Int64) (files : Files) : Int64 × Files :=
  match files.vclock with
  | some input => (((i64 input).map Prod.fst).getD 0, files)
  | none => (realtime, { files with vclock := some (longLong realtime) })

/-- Deltas that are already recorded are replayed; else this run records them. -/
def initDeltas (mono : Int64) (clock : Vclock) (files : Files) : Vclock × Files :=
  let recorded := files.deltas.getD []
  if 8 ≤ recorded.length then
    ({ clock with
        mode := .replay
        deltaBuf := ((times (recorded.length / 8) i64 recorded).map Prod.fst).getD [] }, files)
  else ({ clock with mode := .record, lastMonoNs := mono }, { files with deltas := some [] })

/-- `vclock_init`, with what the real clocks read. -/
def vclockInit (env : Env) (realtime mono : Int64) (files : Files) : Vclock × Files :=
  let (baseNs, files) := initBase realtime files
  if env.deltas then initDeltas mono { baseNs } files else ({ baseNs }, files)

/-- The advance at an input event, and the clock and the delta file after it. `mono` is what the
monotonic clock reads, should it be asked. -/
def Vclock.delta (clock : Vclock) (mono : Int64) (deltas : Option Bytes) :
    Int64 × Vclock × Option Bytes :=
  match clock.mode with
  | .fixed => (tickNs, clock, deltas)
  | .record =>
      let delta := mono - clock.lastMonoNs
      let delta := if delta < 0 then 0 else delta
      (delta, { clock with lastMonoNs := mono }, deltas.map (· ++ longLong delta))
  | .replay =>
      match clock.deltaBuf[clock.deltaI]? with
      | some delta => (delta, { clock with deltaI := clock.deltaI + 1 }, deltas)
      | none => (0, clock, deltas)

/-- The addition wraps, as the atomic one does. -/
def Vclock.advance (clock : Vclock) (mono : Int64) (deltas : Option Bytes) :
    Vclock × Option Bytes :=
  let (delta, clock, deltas) := clock.delta mono deltas
  ({ clock with ticks := clock.ticks + delta }, deltas)

def Vclock.now (clock : Vclock) : Int64 := clock.baseNs + clock.ticks

/-- `gettimeofday`: seconds and microseconds. -/
def Vclock.gettimeofday (clock : Vclock) : Int64 × Int64 :=
  (clock.now / 1000000000, clock.now % 1000000000 / 1000)

/-- `clock_gettime`: seconds and nanoseconds. -/
def Vclock.clockGettime (clock : Vclock) : Int64 × Int64 :=
  (clock.now / 1000000000, clock.now % 1000000000)

/-- `time`: seconds. -/
def Vclock.time (clock : Vclock) : Int64 := clock.now / 1000000000

/-! ### Capturing -/

/-- `fd → conn_id` of the accepted connections, the next id, the clock if it is on, and the inputs
captured so far. -/
structure Shim where
  env : Env
  connIdOf : Nat → Option UInt32 := fun _ => none
  nextConnId : UInt32 := 1
  requests : Nat := 0
  clock : Option Vclock := none
  files : Files

def Shim.start (env : Env) (realtime mono : Int64) (files : Files) : Shim :=
  let files := if env.capture then { files with capture := some (files.capture.getD []) } else files
  if env.vclock then
    let (clock, files) := vclockInit env realtime mono files
    { env, clock := some clock, files }
  else { env, files }

/-- The calls of the server that pass through the shim: descriptors that become connections, reads
with what they returned, and descriptors that are closed. -/
inductive Call where
  | accept (fd : Nat)
  | read (fd : Nat) (input : Bytes) (mono : Int64)
  | close (fd : Nat)
  deriving DecidableEq

/-- `MAXFD`. -/
def maxFd : Nat := 65536

/-- `[u32 conn_id][u32 len][len bytes]`. -/
def encodeCapture (connId : UInt32) (input : Bytes) : Bytes :=
  leBytes 4 connId.toNat ++ (leBytes 4 input.length ++ input)

/-- A read counts if it returned something on a connection. -/
def Shim.captures (shim : Shim) (fd : Nat) (input : Bytes) : Option UInt32 :=
  if input = [] ∨ maxFd ≤ fd then none else shim.connIdOf fd

def Shim.capture (shim : Shim) (fd : Nat) (input : Bytes) (mono : Int64) : Shim :=
  match shim.captures fd input with
  | none => shim
  | some connId =>
      let advanced := shim.clock.map fun clock => clock.advance mono shim.files.deltas
      { shim with
        requests := shim.requests + 1
        clock := advanced.map Prod.fst
        files := {
          shim.files with
          deltas := (advanced.map Prod.snd).getD shim.files.deltas
          capture :=
            if shim.env.capture then shim.files.capture.map (· ++ encodeCapture connId input)
            else shim.files.capture } }

def Shim.step (shim : Shim) : Call → Shim
  | .accept fd =>
      if maxFd ≤ fd then shim
      else
        { shim with
          connIdOf := Function.update shim.connIdOf fd (some shim.nextConnId)
          nextConnId := shim.nextConnId + 1 }
  | .read fd input mono => shim.capture fd input mono
  | .close fd =>
      if maxFd ≤ fd then shim else { shim with connIdOf := Function.update shim.connIdOf fd none }

end OneBarrier.Interpose
