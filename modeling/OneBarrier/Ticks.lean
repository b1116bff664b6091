import OneBarrier.Interpose

/-!
# Resuming virtual time

Under `OB_VCLOCK_TICKS` the shim also keeps its tick count in a file: it starts from what the file
holds and stores the count after every input event. A recovery from a snapshot of the application
replays only the requests after the snapshot, on the file as it was then.
-/

namespace OneBarrier.Interpose

open Wire

/-- The shim and the content of the tick file, if the file exists. -/
structure Ticking where
  shim : Shim
  ticks : Option Bytes

/-- The starting offset. A file with less than a whole value counts as none. -/
def loadTicks (ticks : Option Bytes) : Int64 := ((i64 (ticks.getD [])).map Prod.fst).getD 0

/-- `vclock_init` opens the file, and so creates it, only if the clock is on. -/
def Ticking.start (env : Env) (realtime mono : Int64) (files : Files) (ticks : Option Bytes) :
    Ticking :=
  let shim := Shim.start env realtime mono files
  match shim.clock with
  | none => { shim, ticks }
  | some clock =>
      { shim := { shim with clock := some { clock with ticks := loadTicks ticks } }
        ticks := some (ticks.getD []) }

/-- `pwrite` of eight bytes at offset 0. -/
def pwriteTicks (ticks : Int64) (file : Bytes) : Bytes := longLong ticks ++ file.drop 8

def Ticking.step (state : Ticking) (call : Call) : Ticking :=
  let shim := state.shim.step call
  match call with
  | .read fd input _ =>
      match state.shim.captures fd input, shim.clock with
      | some _, some clock => { shim, ticks := state.ticks.map (pwriteTicks clock.ticks) }
      | _, _ => { shim, ticks := state.ticks }
  | _ => { shim, ticks := state.ticks }

end OneBarrier.Interpose
