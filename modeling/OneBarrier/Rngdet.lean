import OneBarrier.Lib.Reader

/-!
# Deterministic randomness

A supervisor answers the `getrandom` calls of the process from a splitmix64 stream. It fills the
caller's buffer through a buffer of its own, one chunk at a time.
-/

namespace OneBarrier.Rngdet

open Wire

/-- `sm_next`: the next word, and the state after it. -/
def smNext (smState : UInt64) : UInt64 × UInt64 :=
  let smState := smState + 0x9E3779B97F4A7C15
  let z := smState
  let z := (z ^^^ (z >>> 30)) * 0xBF58476D1CE4E5B9
  let z := (z ^^^ (z >>> 27)) * 0x94D049BB133111EB
  (z ^^^ (z >>> 31), smState)

/-- `det_fill`: `n` bytes, and the state after them. The machine is little-endian. -/
def detFill (n : Nat) (smState : UInt64) : Bytes × UInt64 :=
  if n = 0 then ([], smState)
  else
    let (r, smState) := smNext smState
    let k := if n < 8 then n else 8
    let (out, smState) := detFill (n - k) smState
    ((leBytes 8 r.toNat).take k ++ out, smState)
termination_by n
decreasing_by split <;> omega

/-! ### The caller's memory -/

abbrev Memory := UInt64 → UInt8

/-- Bytes stored from an address on. Addresses wrap. -/
def Memory.poke (mem : Memory) (dst : UInt64) (src : Bytes) : Memory :=
  fun addr => src.getD (addr - dst).toNat (mem addr)

/-- The `n` bytes from an address on. -/
def Memory.peek (mem : Memory) (dst : UInt64) (n : Nat) : Bytes :=
  (List.range n).map fun i => mem (dst + UInt64.ofNat i)

/-- What the kernel does at one write: how much `process_vm_writev` stores, whether
`/proc/<pid>/mem` can be opened, and how much `pwrite` stores. `none` is an error. -/
structure Transfer where
  written : Option Nat
  opened : Bool
  pwritten : Option Nat
  deriving DecidableEq

/-- `write_remote`, and whether it returns 0. -/
def writeRemote (kernel : Transfer) (mem : Memory) (dst : UInt64) (src : Bytes) : Memory × Bool :=
  let mem := mem.poke dst (src.take (kernel.written.getD 0))
  if kernel.written = some src.length then (mem, true)
  else if !kernel.opened then (mem, false)
  else (mem.poke dst (src.take (kernel.pwritten.getD 0)), kernel.pwritten == some src.length)

/-! ### The supervisor -/

/-- `sizeof buf`. -/
def bufSize : Nat := 4096

/-- The chunk loop from an offset on, which stops at the first write that fails. The kernel's
answers are numbered by chunk. -/
def fillRemote (kernel : Nat → Transfer) (mem : Memory) (dst : UInt64) (len off : Nat)
    (smState : UInt64) : Memory × Bool × UInt64 :=
  if off < len then
    let k := if len - off < bufSize then len - off else bufSize
    let (buf, smState) := detFill k smState
    match writeRemote (kernel 0) mem (dst + UInt64.ofNat off) buf with
    | (mem, false) => (mem, false, smState)
    | (mem, true) => fillRemote (fun i => kernel (i + 1)) mem dst len (off + k) smState
  else (mem, true, smState)
termination_by len - off
decreasing_by
  have : 0 < bufSize := by decide
  split <;> omega

/-- A trapped `getrandom` call: its arguments, the caller's memory, and the kernel's answers to the
supervisor. -/
structure Request where
  dst : UInt64
  len : UInt64
  mem : Memory
  kernel : Nat → Transfer

/-- The answer to the trapped call. `passed` is `SECCOMP_USER_NOTIF_FLAG_CONTINUE`: the kernel then
runs the call itself. -/
structure Response where
  val : UInt64
  passed : Bool
  mem : Memory

def getrandom (request : Request) (smState : UInt64) : Response × UInt64 :=
  match fillRemote request.kernel request.mem request.dst request.len.toNat 0 smState with
  | (mem, true, smState) => ({ val := request.len, passed := false, mem }, smState)
  | (mem, false, smState) => ({ val := 0, passed := true, mem }, smState)

/-- The requests of a run, in the order in which the supervisor receives them. -/
def supervisor : List Request → UInt64 → List Response × UInt64
  | [], smState => ([], smState)
  | request :: requests, smState =>
      let (response, smState) := getrandom request smState
      let (responses, smState) := supervisor requests smState
      (response :: responses, smState)

end OneBarrier.Rngdet
