import OneBarrier.Replay

/-!
# What the shim captures

The intercepted socket calls with their buffers and flags, as the shim wraps them, and beside the
shim the kernel's side: which connection a descriptor is, and which bytes of it the application has
consumed. A connection begins with the `accept` or the `bind` that gives it its descriptor.
-/

namespace OneBarrier.Interpose

open Wire

abbrev Memory := Nat → UInt8

structure Iovec where
  base : Nat
  len : Nat
  deriving DecidableEq

def Iovec.addresses (iov : List Iovec) : List Nat := iov.flatMap fun vec => List.range' vec.base vec.len

/-- The flags that change what a receive takes off its socket. -/
structure RecvFlags where
  peek : Bool := false
  trunc : Bool := false
  errqueue : Bool := false
  deriving DecidableEq

/-- How a receive went: its return value, the memory it leaves, the bytes the application has
consumed with it, and what the monotonic clock reads, should it be asked. -/
structure Receipt where
  returned : Int
  memory : Memory
  consumed : Bytes
  mono : Int64 := 0

inductive Intercepted where
  | accept (fd : Option Nat)
  | accept4 (fd : Option Nat)
  | bind (fd : Nat) (succeeded : Bool)
  | read (fd : Nat) (buf : Iovec) (receipt : Receipt)
  | recv (fd : Nat) (buf : Iovec) (flags : RecvFlags) (receipt : Receipt)
  | recvfrom (fd : Nat) (buf : Iovec) (flags : RecvFlags) (receipt : Receipt)
  | recvmsg (fd : Nat) (iov : List Iovec) (flags : RecvFlags) (receipt : Receipt)
  | close (fd : Nat)

/-! ### The wrappers -/

namespace Shim

/-- `mark_conn`. -/
def markConn (shim : Shim) (fd : Nat) : Shim := shim.step (.accept fd)

/-- `capture(fd, buf, n)`: the `n` bytes at `buf`. -/
def captureAt (shim : Shim) (fd buf : Nat) (receipt : Receipt) : Shim :=
  shim.capture fd ((List.range' buf receipt.returned.toNat).map receipt.memory) receipt.mono

def intercept (shim : Shim) : Intercepted → Shim
  | .accept (some fd) | .accept4 (some fd) => shim.markConn fd
  | .accept none | .accept4 none => shim
  | .bind fd succeeded => if succeeded then shim.markConn fd else shim
  | .read fd buf receipt => shim.captureAt fd buf.base receipt
  | .recv fd buf _ receipt => shim.captureAt fd buf.base receipt
  | .recvfrom fd buf _ receipt => shim.captureAt fd buf.base receipt
  | .recvmsg fd iov _ receipt =>
      match iov with
      | [] => shim
      | vec :: _ => shim.captureAt fd vec.base receipt
  | .close fd => shim.step (.close fd)

end Shim

/-! ### The kernel's side -/

/-- A receive as the kernel sees it. -/
structure Receive where
  fd : Nat
  iov : List Iovec
  flags : RecvFlags
  receipt : Receipt

namespace Intercepted

/-- The descriptor that becomes a connection. -/
def opens : Intercepted → Option Nat
  | accept fd | accept4 fd => fd
  | bind fd succeeded => if succeeded then some fd else none
  | _ => none

def receives : Intercepted → Option Receive
  | read fd buf receipt => some { fd, iov := [buf], flags := {}, receipt }
  | recv fd buf flags receipt => some { fd, iov := [buf], flags, receipt }
  | recvfrom fd buf flags receipt => some { fd, iov := [buf], flags, receipt }
  | recvmsg fd iov flags receipt => some { fd, iov, flags, receipt }
  | _ => none

def closes : Intercepted → Option Nat
  | close fd => some fd
  | _ => none

/-- The descriptors of the call. -/
def fds (call : Intercepted) : List Nat :=
  call.opens.toList ++ (call.receives.map Receive.fd).toList ++ call.closes.toList

end Intercepted

/-- What a receive does: it returns less than two gigabytes; a peek and the error queue take nothing
off the connection; else what is taken stands in the buffers, in their order, and it is as long as
the return value says unless `MSG_TRUNC` asks for the length that was there. -/
structure Receive.Kernel (receive : Receive) : Prop where
  bounded : receive.receipt.returned < 2 ^ 31
  kept : receive.flags.peek = true ∨ receive.flags.errqueue = true → receive.receipt.consumed = []
  stored : receive.receipt.consumed = ((Iovec.addresses receive.iov).map receive.receipt.memory).take
    receive.receipt.consumed.length
  whole : receive.flags.peek = false → receive.flags.errqueue = false → receive.flags.trunc = false →
    receive.receipt.consumed.length = receive.receipt.returned.toNat
  short : receive.receipt.consumed.length ≤ receive.receipt.returned.toNat

instance Receive.decidableKernel (receive : Receive) : Decidable receive.Kernel :=
  decidable_of_iff
    (receive.receipt.returned < 2 ^ 31
      ∧ (receive.flags.peek = true ∨ receive.flags.errqueue = true → receive.receipt.consumed = [])
      ∧ receive.receipt.consumed = ((Iovec.addresses receive.iov).map receive.receipt.memory).take
          receive.receipt.consumed.length
      ∧ (receive.flags.peek = false → receive.flags.errqueue = false → receive.flags.trunc = false →
          receive.receipt.consumed.length = receive.receipt.returned.toNat)
      ∧ receive.receipt.consumed.length ≤ receive.receipt.returned.toNat)
    ⟨fun ⟨bounded, kept, stored, whole, short⟩ => ⟨bounded, kept, stored, whole, short⟩,
      fun ⟨bounded, kept, stored, whole, short⟩ => ⟨bounded, kept, stored, whole, short⟩⟩

/-- The shim and the kernel's table: a connection is the number of those opened before it. Each has
the id the shim gave it, and its bytes consumed so far. -/
structure Captured where
  shim : Shim
  connOf : Nat → Option Nat := fun _ => none
  ids : List UInt32 := []
  consumed : Nat → Bytes := fun _ => []

namespace Captured

def openConn (state : Captured) (fd : Nat) (shim : Shim) : Captured :=
  { state with
    shim
    connOf := Function.update state.connOf fd (some state.ids.length)
    ids := state.ids ++ (shim.connIdOf fd).toList }

def consume (state : Captured) (receive : Receive) (shim : Shim) : Captured :=
  match state.connOf receive.fd with
  | none => { state with shim }
  | some conn =>
      { state with
        shim
        consumed := Function.update state.consumed conn
          (state.consumed conn ++ receive.receipt.consumed) }

def step (state : Captured) (call : Intercepted) : Captured :=
  let shim := state.shim.intercept call
  match call.opens, call.receives, call.closes with
  | some fd, _, _ => state.openConn fd shim
  | none, some receive, _ => state.consume receive shim
  | none, none, some fd => { state with shim, connOf := Function.update state.connOf fd none }
  | none, none, none => { state with shim }

/-- A process with `OB_CAPTURE` set. -/
def start (env : Env) (realtime mono : Int64) (files : Files) : Captured :=
  { shim := Shim.start { env with capture := true } realtime mono files }

/-- What this process has appended to the capture file. -/
def log (state : Captured) (files : Files) : Bytes :=
  (state.shim.files.capture.getD []).drop (files.capture.getD []).length

/-- The bytes of the log's records that carry a given id. -/
def recorded (log : Bytes) (connId : UInt32) : Bytes :=
  ((Replay.parse log.length log).filter fun record => record.1 = connId).flatMap Prod.snd

end Captured

/-! ### What is captured right -/

/-- Where the first buffer begins. -/
def Receive.firstBase (receive : Receive) : Nat := (receive.iov.head?.map Iovec.base).getD 0

/-- Nothing is left on the socket, as much is taken as is returned, and it stands in one piece from
the first buffer's address on. -/
structure Receive.Plain (receive : Receive) : Prop where
  taken : receive.flags.peek = false ∧ receive.flags.errqueue = false
  untruncated : receive.flags.trunc = true →
    receive.receipt.consumed.length = receive.receipt.returned.toNat
  inOnePiece : (Iovec.addresses receive.iov).take receive.receipt.returned.toNat
    = List.range' receive.firstBase receive.receipt.returned.toNat

instance Receive.decidablePlain (receive : Receive) : Decidable receive.Plain :=
  decidable_of_iff
    ((receive.flags.peek = false ∧ receive.flags.errqueue = false)
      ∧ (receive.flags.trunc = true →
          receive.receipt.consumed.length = receive.receipt.returned.toNat)
      ∧ (Iovec.addresses receive.iov).take receive.receipt.returned.toNat
          = List.range' receive.firstBase receive.receipt.returned.toNat)
    ⟨fun ⟨taken, untruncated, inOnePiece⟩ => ⟨taken, untruncated, inOnePiece⟩,
      fun ⟨taken, untruncated, inOnePiece⟩ => ⟨taken, untruncated, inOnePiece⟩⟩

/-- Descriptors are below `MAXFD`, the kernel keeps its contract, and what a receive on a connection
returns is received plainly. -/
structure Captured.Admits (state : Captured) (call : Intercepted) : Prop where
  below : ∀ fd ∈ call.fds, fd < maxFd
  kernel : ∀ receive ∈ call.receives, receive.Kernel
  plain : ∀ receive ∈ call.receives, (state.connOf receive.fd).isSome →
    0 < receive.receipt.returned → receive.Plain

instance Captured.decidableAdmits (state : Captured) (call : Intercepted) :
    Decidable (state.Admits call) :=
  decidable_of_iff
    ((∀ fd ∈ call.fds, fd < maxFd) ∧ (∀ receive ∈ call.receives, receive.Kernel)
      ∧ ∀ receive ∈ call.receives, (state.connOf receive.fd).isSome →
        0 < receive.receipt.returned → receive.Plain)
    ⟨fun ⟨below, kernel, plain⟩ => ⟨below, kernel, plain⟩,
      fun ⟨below, kernel, plain⟩ => ⟨below, kernel, plain⟩⟩

end OneBarrier.Interpose
