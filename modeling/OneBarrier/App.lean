import OneBarrier.Server
import OneBarrier.Frontend.Resp
import OneBarrier.Frontend.Memcache
import OneBarrier.Frontend.Http
import OneBarrier.Frontend.Txn
import OneBarrier.Frontend.StreamLog

/-!
# The five applications

The front-ends side by side: which replies tell a client that its write is done, and how closely
each looks at the service's answers before it gives one.
-/

namespace OneBarrier

open Wire Utf8

inductive App where
  | resp
  | memcache
  | http
  | txn
  | streamlog
  deriving DecidableEq

namespace App

def frontend : App → Frontend
  | resp => OneBarrier.resp
  | memcache => OneBarrier.memcache
  | http => OneBarrier.http
  | txn => OneBarrier.txn
  | streamlog => OneBarrier.streamlog

/-- Ops whose answer the front-end drops: it replies the same when there is none. -/
def ignores : App → OpKind → Bool
  | resp, .del _ => true
  | memcache, .set _ _ => true
  | txn, .txn _ => true
  | streamlog, .set _ _ => true
  | _, _ => false

/-- Ops for which any answer counts, a suppressed duplicate included. -/
def lenient : App → OpKind → Bool
  | resp, .set _ _ => true
  | http, .set _ _ => true
  | app, kind => app.ignores kind

end App

/-! ### Success replies to write requests -/

namespace Resp

def name (args : List Bytes) : Bytes := (args.headD []).map Text.asciiUpper

def isWrite (args : List Bytes) : Bool :=
  (name args = asBytes "SET" && 3 ≤ args.length)
    || ((isIncr (name args) || name args = asBytes "DEL") && 2 ≤ args.length)

/-- `+OK`, or `:n`. -/
def success (args : List Bytes) (output : Bytes) : Bool :=
  isWrite args && (output = asBytes "+OK\r\n" || output.head? = some 58)

end Resp

namespace Memcache

def isIncr (parts : List Bytes) : Bool :=
  (name parts = asBytes "incr" || name parts = asBytes "decr") && 3 ≤ parts.length

def isNumber (output : Bytes) : Bool :=
  ((fromUtf8 output).bind fun text => Text.parseI64 (Text.trim text.toList)).isSome

/-- `STORED`, or a number. -/
def success (command : Command) (output : Bytes) : Bool :=
  (isStorage command.parts && output = asBytes "STORED\r\n")
    || (isIncr command.parts && isNumber output)

end Memcache

namespace Http

/-- Status 200 for `PUT` and `POST`. -/
def success (request : Request) (output : Bytes) : Bool :=
  (request.method = "PUT".toList || request.method = "POST".toList)
    && (asBytes "HTTP/1.1 200").isPrefixOf output

end Http

namespace Txn

def isWrite (parts : List (List Char)) : Bool :=
  (name parts = "SET".toList && 3 ≤ parts.length) || (name parts = "DEL".toList && 2 ≤ parts.length)
    || name parts = "COMMIT".toList

/-- `OK`, or `COMMIT n`. -/
def success (parts : List (List Char)) (output : Bytes) : Bool :=
  isWrite parts && (output = asBytes "OK\r\n" || (asBytes "COMMIT ").isPrefixOf output)

end Txn

namespace StreamLog

def isPub (parts : List (List Char)) : Bool := name parts = "PUB".toList && 3 ≤ parts.length

/-- `OFFSET n`. -/
def success (parts : List (List Char)) (output : Bytes) : Bool :=
  isPub parts && (asBytes "OFFSET ").isPrefixOf output

end StreamLog

/-- The reply tells the client that the request, a write, is done. -/
def App.success : (app : App) → app.frontend.Request → Bytes → Bool
  | .resp => Resp.success
  | .memcache => Memcache.success
  | .http => Http.success
  | .txn => Txn.success
  | .streamlog => StreamLog.success

end OneBarrier
