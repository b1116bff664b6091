import OneBarrier.Service

/-!
# The HTTP front-end

A request line, headers up to an empty line or the end of the stream, and a body of the announced
length.
-/

namespace OneBarrier.Http

open Wire Input Utf8 Text

structure Request where
  method : List Char
  path : List Char
  body : Bytes
  keepAlive : Bool
  deriving DecidableEq

/-- What the headers say, as far as they have been read. -/
structure Headers where
  contentLength : Nat := 0
  keepAlive : Bool := true
  deriving DecidableEq

/-! ### Reading a request -/

/-- The line with its terminator; empty at the end of the stream. -/
def readLine : Fallible (List Char) := do
  let raw ← readUntilNewline
  pure (fromUtf8Lossy raw).toList

def Headers.add (headers : Headers) (line : List Char) : Headers :=
  match splitOnce ':' line with
  | none => headers
  | some (key, value) =>
      let key := (trim key).map Char.toLower
      if key = "content-length".toList then
        { headers with contentLength := (parseUsize (trim value)).getD 0 }
      else if key = "connection".toList then
        { headers with keepAlive := (trim value).map Char.toLower ≠ "close".toList }
      else headers

/-- The header loop, up to `fuel` lines. -/
def readHeaders : Nat → Headers → Fallible Headers
  | 0, headers => pure headers
  | fuel + 1, headers => do
      let line ← readLine
      if trimEnd line = [] then pure headers else readHeaders fuel (headers.add (trimEnd line))

/-- Every header line but the last takes a byte off the source. -/
def readAllHeaders : Fallible Headers := fun source => readHeaders (source.length + 1) {} source

def readBody (length : Nat) : Fallible Bytes := do
  if 2 ^ 63 ≤ length then throw .capacity
  readExact length

/-- A timeout in the request line is retried; one behind it ends the connection. -/
def read : Reading (Received Request) := do
  match ← readLine.run with
  | .ok line =>
      if line = [] then pure .close
      else
        match tokens isWhitespace line with
        | method :: path :: _ =>
            match ← readAllHeaders.run with
            | .error _ => pure .close
            | .ok headers =>
                match ← (readBody headers.contentLength).run with
                | .error _ => pure .close
                | .ok body => pure (.request { method, path, body, keepAlive := headers.keepAlive })
        | _ => pure .again
  | .error .timeout => pure .again
  | .error _ => pure .close

/-! ### Routes -/

def key (path : List Char) : String := String.ofList (path.dropWhile (· = '/'))

def route (method path : List Char) (body : Bytes) (client : UInt32) (seq : UInt64) :
    Conv (Nat × Bytes) :=
  let path := path.takeWhile (· ≠ '?')
  let incr := "/incr/".toList.isPrefixOf path
  if method = "GET".toList then do
    match ← Conv.applied { client, seq, kind := .get (key path) } with
    | some (.bytes (some value)) => pure (200, value)
    | _ => pure (404, asBytes "not found")
  else if (method = "PUT".toList ∨ method = "POST".toList) ∧ ¬ incr then do
    match ← Conv.applied { client, seq, kind := .set (key path) body } with
    | some _ => pure (200, asBytes "OK")
    | none => pure (503, asBytes "unavailable")
  else if method = "POST".toList then do
    match ← Conv.applied { client, seq, kind := .incr (String.ofList (path.drop 6)) 1 } with
    | some (.value (some value)) => pure (200, asBytes (showI64 value))
    | _ => pure (503, asBytes "unavailable")
  else if method = "DELETE".toList then do
    match ← Conv.applied { client, seq, kind := .del (key path) } with
    | some (.value (some value)) => pure (200, asBytes (showI64 value))
    | _ => pure (200, asBytes "0")
  else pure (405, asBytes "method not allowed")

def reason (status : Nat) : String :=
  match status with
  | 200 => "OK"
  | 404 => "Not Found"
  | 405 => "Method Not Allowed"
  | 503 => "Service Unavailable"
  | _ => "OK"

def writeResponse (status : Nat) (body : Bytes) (keepAlive : Bool) : Bytes :=
  asBytes ("HTTP/1.1 " ++ toString status ++ " " ++ reason status ++ "\r\n")
    ++ asBytes ("Content-Length: " ++ toString body.length ++ "\r\n")
    ++ asBytes "Content-Type: application/octet-stream\r\n"
    ++ asBytes ("Connection: " ++ (if keepAlive then "keep-alive" else "close") ++ "\r\n\r\n")
    ++ body

def serve (client : UInt32) (seq : UInt64) (request : Request) : Conv (Turn UInt64) := do
  let (status, payload) ← route request.method request.path request.body client (seq + 1)
  pure
    { conn := seq + 1
      output := writeResponse status payload request.keepAlive
      close := !request.keepAlive }

end OneBarrier.Http

namespace OneBarrier

/-- `HttpProtocol`. -/
def http : Frontend where
  Conn := UInt64
  Request := Http.Request
  init := 0
  read := Http.read
  serve := Http.serve

end OneBarrier
