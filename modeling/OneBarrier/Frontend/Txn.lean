import OneBarrier.Service

/-!
# The transactional front-end

A line protocol. The writes between `BEGIN` and `COMMIT` are queued on the connection and committed
as one op.
-/

namespace OneBarrier.Txn

open Wire Input Utf8 Text

/-- The connection's variables: the queued writes and whether a transaction is open. -/
structure Conn where
  seq : UInt64 := 0
  buf : List (String × Option Bytes) := []
  inTxn : Bool := false
  deriving DecidableEq

/-- A pass over the connection: one line, split at whitespace. -/
def read : Reading (Received (List (List Char))) := do
  match ← readUntilNewline.run with
  | .ok raw =>
      if raw = [] then pure .close
      else
        let parts := tokens isWhitespace (fromUtf8Lossy raw).toList
        if parts = [] then pure .again else pure (.request parts)
  | .error .timeout => pure .again
  | .error _ => pure .close

/-- A write of `SET` or `DEL`: queued in a transaction, else committed on its own. The service's
answer is not looked at. -/
def write (client : UInt32) (conn : Conn) (entry : String × Option Bytes) : Conv (Turn Conn) :=
  if conn.inTxn then
    pure { conn := { conn with buf := conn.buf ++ [entry] }, output := asBytes "QUEUED\r\n" }
  else do
    let _ ← Conv.applied { client, seq := conn.seq + 1, kind := .txn [entry] }
    pure { conn := { conn with seq := conn.seq + 1 }, output := asBytes "OK\r\n" }

def name (parts : List (List Char)) : List Char := (parts.headD []).map Char.toUpper

def serve (client : UInt32) (conn : Conn) (parts : List (List Char)) : Conv (Turn Conn) :=
  let key := String.ofList (parts.getD 1 [])
  if name parts = "BEGIN".toList then
    pure { conn := { conn with inTxn := true, buf := [] }, output := asBytes "BEGIN\r\n" }
  else if name parts = "SET".toList ∧ 3 ≤ parts.length then
    write client conn (key, some (asBytes (String.ofList (parts.getD 2 []))))
  else if name parts = "DEL".toList ∧ 2 ≤ parts.length then write client conn (key, none)
  else if name parts = "GET".toList ∧ 2 ≤ parts.length then do
    let conn := { conn with seq := conn.seq + 1 }
    match ← Conv.applied { client, seq := conn.seq, kind := .get key } with
    | some (.bytes (some value)) =>
        pure
          { conn
            output := asBytes ("VALUE " ++ toString value.length ++ "\r\n") ++ value
              ++ asBytes "\r\n" }
    | _ => pure { conn, output := asBytes "NIL\r\n" }
  else if name parts = "COMMIT".toList then
    if conn.inTxn then do
      let _ ← Conv.applied { client, seq := conn.seq + 1, kind := .txn conn.buf }
      pure
        { conn := { seq := conn.seq + 1, buf := [], inTxn := false }
          output := asBytes ("COMMIT " ++ toString conn.buf.length ++ "\r\n") }
    else pure { conn, output := asBytes "ERR no transaction\r\n" }
  else if name parts = "ABORT".toList then
    pure { conn := { conn with buf := [], inTxn := false }, output := asBytes "ABORT\r\n" }
  else if name parts = "QUIT".toList then pure { conn, output := [], close := true }
  else pure { conn, output := asBytes "ERR unknown command\r\n" }

end OneBarrier.Txn

namespace OneBarrier

/-- `TxnProtocol`. -/
def txn : Frontend where
  Conn := Txn.Conn
  Request := List (List Char)
  init := {}
  read := Txn.read
  serve := Txn.serve

end OneBarrier
