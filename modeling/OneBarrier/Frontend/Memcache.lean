import OneBarrier.Service

/-!
# The Memcached front-end

The text protocol: one line, split at spaces, and a data block behind the line of a storage command.
-/

namespace OneBarrier.Memcache

open Wire Input Utf8 Text

/-- The words of the command line, and the data block of a storage command. -/
structure Command where
  parts : List Bytes
  data : Bytes
  deriving DecidableEq

/-! ### Reading a command -/

/-- The line without its terminator; `none` at the end of the stream. -/
def readLine : Fallible (Option Bytes) := do
  let raw ← readUntilNewline
  if raw = [] then pure none
  else pure (some (raw.reverse.dropWhile (fun byte => byte = 10 || byte = 13)).reverse)

def parseUsize (text : Bytes) : Nat :=
  ((fromUtf8 text).bind fun text => Text.parseUsize text.toList).getD 0

def parseI64 (text : Bytes) : Int64 :=
  ((fromUtf8 text).bind fun text => Text.parseI64 text.toList).getD 0

def name (parts : List Bytes) : Bytes := (parts.headD []).map asciiLower

def isStorage (parts : List Bytes) : Bool :=
  name parts = asBytes "set" || name parts = asBytes "add" || name parts = asBytes "replace"

/-- The data block and its terminator. The sum of the announced length and the terminator's wraps:
the release profile has no overflow checks. -/
def readData (length : Nat) : Fallible Bytes := do
  let size := (length + 2) % 2 ^ 64
  if 2 ^ 63 ≤ size then throw .capacity
  let data ← readExact size
  pure (data.take length)

/-- A timeout in the command line is retried; one in the data block ends the connection. -/
def read : Reading (Received Command) := do
  match ← readLine.run with
  | .ok none => pure .close
  | .ok (some line) =>
      let parts := tokens (· = 32) line
      if parts = [] then pure .again
      else if isStorage parts ∧ 5 ≤ parts.length then
        match ← (readData (parseUsize (parts.getD 4 []))).run with
        | .ok data => pure (.request { parts, data })
        | .error _ => pure .close
      else pure (.request { parts, data := [] })
  | .error .timeout => pure .again
  | .error _ => pure .close

/-! ### Commands -/

def getAll (client : UInt32) : UInt64 → List Bytes → Conv (UInt64 × Bytes)
  | seq, [] => pure (seq, [])
  | seq, name :: names => do
      let key := fromUtf8Lossy name
      let seq := seq + 1
      let out ← Conv.applied { client, seq, kind := .get key }
      let (last, later) ← getAll client seq names
      match out with
      | some (.bytes (some value)) =>
          pure (last, asBytes ("VALUE " ++ key ++ " 0 " ++ toString value.length ++ "\r\n")
            ++ value ++ asBytes "\r\n" ++ later)
      | _ => pure (last, later)

/-- A storage command is answered without looking at the service's answer. -/
def serve (client : UInt32) (seq : UInt64) (command : Command) : Conv (Turn UInt64) :=
  let parts := command.parts
  let key := fromUtf8Lossy (parts.getD 1 [])
  if isStorage parts then
    if parts.length < 5 then pure { conn := seq, output := asBytes "ERROR\r\n" }
    else do
      let _ ← Conv.applied { client, seq := seq + 1, kind := .set key command.data }
      let noreply := parts.getLast? = some (asBytes "noreply")
      pure { conn := seq + 1, output := if noreply then [] else asBytes "STORED\r\n" }
  else if name parts = asBytes "get" ∨ name parts = asBytes "gets" then do
    let (seq, output) ← getAll client seq parts.tail
    pure { conn := seq, output := output ++ asBytes "END\r\n" }
  else if (name parts = asBytes "incr" ∨ name parts = asBytes "decr") ∧ 3 ≤ parts.length then do
    let magnitude := parseI64 (parts.getD 2 [])
    match ← Conv.applied { client, seq := seq + 1, kind := .get key } with
    | some (.bytes (some _)) =>
        let delta := if name parts = asBytes "decr" then -magnitude else magnitude
        match ← Conv.applied { client, seq := seq + 2, kind := .incr key delta } with
        | some (.value (some value)) =>
            pure { conn := seq + 2, output := asBytes (showI64 (max value 0) ++ "\r\n") }
        | _ => pure { conn := seq + 2, output := asBytes "ERROR\r\n" }
    | _ => pure { conn := seq + 1, output := asBytes "NOT_FOUND\r\n" }
  else if name parts = asBytes "delete" ∧ 2 ≤ parts.length then do
    match ← Conv.applied { client, seq := seq + 1, kind := .del key } with
    | some (.value (some 1)) => pure { conn := seq + 1, output := asBytes "DELETED\r\n" }
    | _ => pure { conn := seq + 1, output := asBytes "NOT_FOUND\r\n" }
  else if name parts = asBytes "version" then
    pure { conn := seq, output := asBytes "VERSION onebarrier-0.1\r\n" }
  else if name parts = asBytes "quit" then pure { conn := seq, output := [], close := true }
  else pure { conn := seq, output := asBytes "ERROR\r\n" }

end OneBarrier.Memcache

namespace OneBarrier

/-- `MemcacheProtocol`. -/
def memcache : Frontend where
  Conn := UInt64
  Request := Memcache.Command
  init := 0
  read := Memcache.read
  serve := Memcache.serve

end OneBarrier
