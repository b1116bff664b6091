import OneBarrier.Frontend.Http
import OneBarrier.Lib.Decimal

/-!
# The documented REST map

What the HTTP front-end's documentation promises, as a map from keys to values of its own: `GET` and
`DELETE` of `/<key>`, `PUT` of a body at `/<key>`, and `POST` to `/incr/<key>`, which adds the `N` of
`?by=N`, or one. Keys are bytes, and counters are integers of any size. Requests are any spelling HTTP
allows of these, on a connection that is kept open.
-/

namespace OneBarrier.Rest

open Wire Utf8 Text Decimal

inductive Route where
  | get (key : Bytes)
  | put (key : Bytes)
  | incr (key : Bytes) (amount : Option Int)
  | delete (key : Bytes)
  deriving DecidableEq

namespace Route

def method : Route → List Char
  | get _ => "GET".toList
  | put _ => "PUT".toList
  | incr .. => "POST".toList
  | delete _ => "DELETE".toList

def key : Route → Bytes
  | get key | put key | incr key _ | delete key => key

def path : Route → Bytes
  | get key | put key | delete key => asBytes "/" ++ key
  | incr key none => asBytes "/incr/" ++ key
  | incr key (some amount) => asBytes "/incr/" ++ key ++ asBytes ("?by=" ++ toString amount)

/-- The key as text. -/
def text (route : Route) : String := fromUtf8Lossy route.key

end Route

/-! ### Requests -/

structure Field where
  name : List Char
  value : List Char
  deriving DecidableEq

def Field.is (field : Field) (name : String) : Prop := field.name.map Char.toLower = name.toList

instance (field : Field) (name : String) : Decidable (field.is name) :=
  inferInstanceAs (Decidable (_ = _))

/-- The numeral of a length between blanks. -/
def Field.Announces (field : Field) (length : Nat) : Prop :=
  ∃ digits, Decimal digits length ∧ trim field.value = digits.map digitChar

/-- A request as a client sends it on a connection it keeps. -/
structure Sent where
  route : Route
  fields : List Field
  body : Bytes
  path_words : ∀ char ∈ (fromUtf8Lossy route.path).toList, isWhitespace char = false
  names : ∀ field ∈ fields, field.name ≠ []
    ∧ ∀ char ∈ field.name, char ≠ ':' ∧ isWhitespace char = false
  values : ∀ field ∈ fields, '\n' ∉ field.value
  lengths : ∀ field ∈ fields, field.is "content-length" → field.Announces body.length
  announced : body ≠ [] → ∃ field ∈ fields, field.is "content-length"
  kept : ∀ field ∈ fields, field.is "connection" →
    (trim field.value).map Char.toLower ≠ "close".toList

/-- The request line up to its line feed. -/
def Route.line (route : Route) : Bytes :=
  asBytes (String.ofList route.method) ++ asBytes " " ++ route.path ++ asBytes " HTTP/1.1\r"

/-- A header line up to its line feed. -/
def Field.line (field : Field) : List Char := field.name ++ ':' :: (field.value ++ ['\r'])

def Sent.bytes (sent : Sent) : Bytes :=
  sent.route.line ++ 10 ::
    ((sent.fields.flatMap fun field => asBytes (String.ofList field.line) ++ [10]) ++ [13, 10]
      ++ sent.body)

/-! ### Answers -/

abbrev Map := Bytes → Option Bytes

/-- Digits, with a sign perhaps. -/
def signed (text : List Char) : Option Int :=
  match text with
  | '-' :: digits => (parseDigits digits).map fun magnitude => -(magnitude : Int)
  | '+' :: digits => (parseDigits digits).map Int.ofNat
  | digits => (parseDigits digits).map Int.ofNat

/-- The integer a value is the text of, between blanks. -/
def integer (value : Bytes) : Option Int :=
  (fromUtf8 value).bind fun text => signed (trim text.toList)

/-- What a counter stands at; a value that is no integer counts as none. -/
def Map.count (map : Map) (key : Bytes) : Int := ((map key).bind integer).getD 0

def respond (map : Map) (sent : Sent) : Map × Nat × Bytes :=
  let key := sent.route.key
  match sent.route with
  | .get _ =>
      match map key with
      | some value => (map, 200, value)
      | none => (map, 404, asBytes "not found")
  | .put _ => (Function.update map key (some sent.body), 200, asBytes "OK")
  | .incr _ amount =>
      let next := asBytes (toString (map.count key + amount.getD 1))
      (Function.update map key (some next), 200, next)
  | .delete _ =>
      (Function.update map key none, 200, asBytes (if (map key).isSome then "1" else "0"))

def step (map : Map) (sent : Sent) : Map := (respond map sent).1

def responses : Map → List Sent → List (Nat × Bytes)
  | _, [] => []
  | map, sent :: later => (respond map sent).2 :: responses (step map sent) later

/-! ### What the front-end gets right -/

/-- The bytes of a text: decoding has nothing to replace in them. -/
def IsText (bytes : Bytes) : Prop := lossyBytes bytes = bytes

instance (bytes : Bytes) : Decidable (IsText bytes) := inferInstanceAs (Decidable (_ = _))

/-- The key survives the path: it is a text, with no query in it, no second slash before it and no
`PUT` below `/incr/`; and what `POST` adds is one. -/
def Route.Plain (route : Route) : Prop :=
  IsText route.key ∧ '?' ∉ route.text.toList ∧
    match route with
    | .get _ | .delete _ => route.text.toList.head? ≠ some '/'
    | .put _ => route.text.toList.head? ≠ some '/' ∧ ¬ "incr/".toList <+: route.text.toList
    | .incr _ amount => amount = none ∨ amount = some 1

instance : (route : Route) → Decidable route.Plain
  | .get _ | .delete _ | .put _ | .incr .. => inferInstanceAs (Decidable (_ ∧ _ ∧ _))

/-- A plain request with a body that can be allocated, and a counter that can still go up. -/
structure Admits (map : Map) (sent : Sent) : Prop where
  plain : sent.route.Plain
  short : sent.body.length < 2 ^ 63
  counts : ∀ key amount, sent.route = .incr key amount →
    -2 ^ 63 ≤ map.count key ∧ map.count key < 2 ^ 63 - 1

/-! ### One connection and the executor -/

/-- The executor's variables, with the directory it writes to. -/
structure Executor where
  engine : Engine KvStore
  disk : Disk
  clock : UInt64

/-- `KvService::apply` with no other call in between; `tick` is what the process-wide counter
reads. -/
def Executor.apply (tick : UInt64 → UInt64) (executor : Executor) (op : Op) :
    Executor × Option Output :=
  let clock := executor.clock + 1
  match executor.engine.deliver Faults.clean executor.disk (max clock (tick clock)) op with
  | (.ok out, engine, disk) => ({ engine, disk, clock }, some out)
  | (_, engine, disk) => ({ engine, disk, clock }, none)

def Executor.len (executor : Executor) : Option Nat := some executor.engine.state.map.size

/-- What the store holds under a key. -/
def view (store : KvStore) : String → Option Bytes := fun key => store.map[key]?

/-- The store as a map. Its keys are texts. -/
def Map.of (store : KvStore) : Map := fun key =>
  if IsText key then view store (fromUtf8Lossy key) else none

end OneBarrier.Rest
