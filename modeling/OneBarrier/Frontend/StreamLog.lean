import OneBarrier.Service

/-!
# The streaming-log front-end

Publishing takes the next offset of a topic with an increment and stores the message under it with
a second op.
-/

namespace OneBarrier.StreamLog

open Wire Input Utf8 Text

/-- A pass over the connection: one line, cut into at most three parts at spaces. -/
def read : Reading (Received (List (List Char))) := do
  match ← readUntilNewline.run with
  | .ok raw =>
      if raw = [] then pure .close
      else
        let line := trimEndMatches ['\r', '\n'] (fromUtf8Lossy raw).toList
        let parts := (splitN ' ' 3 line).map trimEnd
        if parts.headD [] = [] then pure .again else pure (.request parts)
  | .error .timeout => pure .again
  | .error _ => pure .close

def counterKey (topic : List Char) : String := "t:" ++ String.ofList topic ++ ":n"

def messageKey (topic : List Char) (offset : Int64) : String :=
  "t:" ++ String.ofList topic ++ ":" ++ showI64 offset

/-- The length of a topic, as the value of its counter reads. -/
def topicLength (out : Option Output) : Int64 :=
  match out with
  | some (.bytes (some value)) =>
      ((fromUtf8 value).bind fun text => parseI64 text.toList).getD 0
  | _ => 0

/-- The messages of `count` offsets from `offset` on. -/
def replay (client : UInt32) (topic : List Char) :
    Nat → Int64 → UInt64 → Conv (UInt64 × Bytes)
  | 0, _, seq => pure (seq, [])
  | count + 1, offset, seq => do
      let seq := seq + 1
      let out ← Conv.applied { client, seq, kind := .get (messageKey topic offset) }
      let (last, later) ← replay client topic count (offset + 1) seq
      match out with
      | some (.bytes (some message)) =>
          pure (last, asBytes ("MSG " ++ showI64 offset ++ " " ++ toString message.length ++ "\r\n")
            ++ message ++ asBytes "\r\n" ++ later)
      | _ => pure (last, later)

def name (parts : List (List Char)) : List Char := (parts.headD []).map Char.toUpper

/-- The answer to the op that stores a message is not looked at. -/
def serve (client : UInt32) (seq : UInt64) (parts : List (List Char)) : Conv (Turn UInt64) :=
  let topic := parts.getD 1 []
  if name parts = "PUB".toList ∧ 3 ≤ parts.length then do
    let message := asBytes (String.ofList (parts.getD 2 []))
    match ← Conv.applied { client, seq := seq + 1, kind := .incr (counterKey topic) 1 } with
    | some (.value (some offset)) =>
        let _ ← Conv.applied
          { client, seq := seq + 2, kind := .set (messageKey topic offset) message }
        pure { conn := seq + 2, output := asBytes ("OFFSET " ++ showI64 offset ++ "\r\n") }
    | _ => pure { conn := seq + 1, output := asBytes "ERR unavailable\r\n" }
  else if name parts = "SUB".toList ∧ 3 ≤ parts.length then do
    let start := max ((parseI64 (trim (parts.getD 2 []))).getD 1) 1
    let out ← Conv.applied { client, seq := seq + 1, kind := .get (counterKey topic) }
    let count := (topicLength out).toInt - start.toInt + 1
    let (seq, output) ← replay client topic count.toNat start (seq + 1)
    pure { conn := seq, output := output ++ asBytes "END\r\n" }
  else if name parts = "LEN".toList ∧ 2 ≤ parts.length then do
    let out ← Conv.applied { client, seq := seq + 1, kind := .get (counterKey topic) }
    pure
      { conn := seq + 1
        output := asBytes ("LEN " ++ showI64 (topicLength out) ++ "\r\n") }
  else if name parts = "QUIT".toList then pure { conn := seq, output := [], close := true }
  else pure { conn := seq, output := asBytes "ERR unknown command\r\n" }

end OneBarrier.StreamLog

namespace OneBarrier

/-- `StreamLogProtocol`. -/
def streamlog : Frontend where
  Conn := UInt64
  Request := List (List Char)
  init := 0
  read := StreamLog.read
  serve := StreamLog.serve

end OneBarrier
