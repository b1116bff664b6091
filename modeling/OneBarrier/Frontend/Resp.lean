import OneBarrier.Service

/-!
# The RESP front-end

Commands are arrays of bulk strings, or a line split at ASCII whitespace.
-/

namespace OneBarrier.Resp

open Wire Input Utf8 Text

inductive Reply where
  | simple (text : String)
  | error (text : String)
  | int (value : Int64)
  | bulk (value : Option Bytes)
  | array (items : List Reply)

namespace Reply

def ok : Reply := simple "OK"

def pong : Reply := simple "PONG"

mutual

/-- `write_to` into a buffer. -/
def toBytes : Reply → Bytes
  | simple text => asBytes ("+" ++ text ++ "\r\n")
  | error text => asBytes ("-" ++ text ++ "\r\n")
  | int value => asBytes (":" ++ showI64 value ++ "\r\n")
  | bulk none => asBytes "$-1\r\n"
  | bulk (some value) =>
      asBytes ("$" ++ toString value.length ++ "\r\n") ++ value ++ asBytes "\r\n"
  | array items => asBytes ("*" ++ toString items.length ++ "\r\n") ++ itemsToBytes items

def itemsToBytes : List Reply → Bytes
  | [] => []
  | item :: items => toBytes item ++ itemsToBytes items

end

end Reply

/-! ### Reading a command -/

/-- The line without its terminator; `none` at the end of the stream. -/
def readLine : Fallible (Option Bytes) := do
  let raw ← readUntilNewline
  if raw = [] then pure none
  else pure (some (raw.reverse.dropWhile (fun byte => byte = 10 || byte = 13)).reverse)

def parseInt (text : Bytes) : Fallible Int64 :=
  match (fromUtf8 text).bind fun text => parseI64 (trim text.toList) with
  | some value => pure value
  | none => throw .invalidData

/-- One bulk string; a negative length is the empty argument. -/
def readBulkWith (alloc : Allocator) : Fallible Bytes := do
  match ← readLine with
  | none => throw .unexpectedEof
  | some header =>
      if header.head? ≠ some 36 then throw .invalidData
      let length ← parseInt header.tail
      if length < 0 then pure []
      else if alloc.Refuses (length.toInt.toNat + 2) then throw .capacity
      else
        let buffer ← readExact (length.toInt.toNat + 2)
        pure (buffer.take length.toInt.toNat)

def readBulksWith (alloc : Allocator) : Nat → Fallible (List Bytes)
  | 0 => pure []
  | count + 1 => do
      let arg ← readBulkWith alloc
      let args ← readBulksWith alloc count
      pure (arg :: args)

/-- `read_command`. The argument list and every argument are allocated before they are read; an
argument vector takes 24 bytes of the list's allocation. -/
def readCommandWith (alloc : Allocator) : Fallible (Option (List Bytes)) := do
  match ← readLine with
  | none => pure none
  | some line =>
      if line = [] then pure (some [])
      else if line.head? = some 42 then
        let count ← parseInt line.tail
        if count ≤ 0 then pure (some [])
        else if alloc.Refuses (count.toInt.toNat * 24) then throw .capacity
        else
          let args ← readBulksWith alloc count.toInt.toNat
          pure (some args)
      else pure (some (tokens isAsciiWhitespace line))

/-- With memory for whatever can be addressed. -/
abbrev readBulk : Fallible Bytes := readBulkWith .whole

abbrev readBulks : Nat → Fallible (List Bytes) := readBulksWith .whole

abbrev readCommand : Fallible (Option (List Bytes)) := readCommandWith .whole

def received : Except Failure (Option (List Bytes)) → Received (List Bytes)
  | .ok none => .close
  | .ok (some args) => if args = [] then .again else .request args
  | .error .timeout => .again
  | .error _ => .close

/-! ### Dispatch -/

def unavailable : Reply := .error "ERR executor unavailable"

/-- The keys of one `DEL`; every one of them is deleted under the command's one `seq`. -/
def deleteAll (client : UInt32) (seq : UInt64) : List Bytes → Int64 → Conv Int64
  | [], count => pure count
  | key :: keys, count => do
      match ← Conv.applied { client, seq, kind := .del (fromUtf8Lossy key) } with
      | some (.value (some deleted)) => deleteAll client seq keys (count + deleted)
      | _ => deleteAll client seq keys count

/-- The increment of `INCR`, `DECR`, `INCRBY` or `DECRBY`. -/
def delta (name : Bytes) (args : List Bytes) : Option Int64 :=
  let magnitude :=
    if name = asBytes "INCRBY" ∨ name = asBytes "DECRBY" then
      args[2]?.bind fun arg => (fromUtf8 arg).bind fun text => parseI64 text.toList
    else some 1
  magnitude.map fun value =>
    if name = asBytes "DECR" ∨ name = asBytes "DECRBY" then -value else value

def isIncr (name : Bytes) : Bool :=
  name = asBytes "INCR" || name = asBytes "DECR" || name = asBytes "INCRBY"
    || name = asBytes "DECRBY"

def dispatch (args : List Bytes) (client : UInt32) (seq : UInt64) : Conv Reply :=
  let name := (args.headD []).map asciiUpper
  let key := fromUtf8Lossy (args.getD 1 [])
  if name = asBytes "PING" then
    if 1 < args.length then pure (.bulk (some (args.getD 1 []))) else pure .pong
  else if name = asBytes "SET" ∧ 3 ≤ args.length then do
    match ← Conv.applied { client, seq, kind := .set key (args.getD 2 []) } with
    | some _ => pure .ok
    | none => pure unavailable
  else if name = asBytes "GET" ∧ 2 ≤ args.length then do
    match ← Conv.applied { client, seq, kind := .get key } with
    | some (.bytes value) => pure (.bulk value)
    | _ => pure (.bulk none)
  else if isIncr name ∧ 2 ≤ args.length then
    match delta name args with
    | none => pure (.error "ERR value is not an integer or out of range")
    | some delta => do
        match ← Conv.applied { client, seq, kind := .incr key delta } with
        | some (.value (some value)) => pure (.int value)
        | _ => pure unavailable
  else if name = asBytes "DEL" ∧ 2 ≤ args.length then do
    let count ← deleteAll client seq args.tail 0
    pure (.int count)
  else if name = asBytes "DBSIZE" then do
    let count ← Conv.counted
    pure (.int (Int64.ofNat (count.getD 0)))
  else if name = asBytes "COMMAND" ∨ name = asBytes "CONFIG" then pure (.array [])
  else if name = asBytes "SELECT" ∨ name = asBytes "FLUSHALL" ∨ name = asBytes "FLUSHDB"
      ∨ name = asBytes "CLIENT" then pure .ok
  else if name = asBytes "RESET" then pure (.simple "RESET")
  else if name = asBytes "INFO" then
    pure (.bulk (some (asBytes "# Server\r\nredis_version:onebarrier-0.1\r\n")))
  else pure (.error ("ERR unknown command '" ++ fromUtf8Lossy name ++ "'"))

/-- `QUIT` is answered without a `seq` of its own. -/
def serve (client : UInt32) (seq : UInt64) (args : List Bytes) : Conv (Turn UInt64) :=
  if (args.headD []).map asciiUpper = asBytes "QUIT" then
    pure { conn := seq, output := Reply.ok.toBytes, close := true }
  else do
    let reply ← dispatch args client (seq + 1)
    pure { conn := seq + 1, output := reply.toBytes }

end OneBarrier.Resp

namespace OneBarrier

open Wire

/-- `RespProtocol`. -/
def resp : Frontend where
  Conn := UInt64
  Request := List Bytes
  init := 0
  read := do
    let command ← Resp.readCommand.run
    pure (Resp.received command)
  serve := Resp.serve

end OneBarrier
