import OneBarrier.Lib.Text
import Std.Data.ExtTreeMap

/-!
# The replicated state machine

Ops, their log encoding, and the `key → bytes` store they act on. Length fields are written with a
saturating conversion, so an oversized key, value or write list is encoded with a length that does
not match what follows it.
-/

namespace OneBarrier

open Wire Utf8 Text

/-- An ordered map, iterated in key order. -/
abbrev BTreeMap (κ β : Type) [Ord κ] := Std.ExtTreeMap κ β compare

inductive OpKind where
  | set (key : String) (value : Bytes)
  | incr (key : String) (delta : Int64)
  | del (key : String)
  | get (key : String)
  | txn (writes : List (String × Option Bytes))
  deriving DecidableEq

/-- A client request. `(client, seq)` is the dedup key. -/
structure Op where
  client : UInt32
  seq : UInt64
  kind : OpKind
  deriving DecidableEq

inductive Output where
  | ok
  | value (count : Option Int64)
  | bytes (value : Option Bytes)
  | suppressed
  deriving DecidableEq

/-! ### Wire and log encoding -/

/-- A length as the codecs write it: `width` bytes, saturating at the largest they hold. -/
def lengthBytes (width length : Nat) : Bytes := leBytes width (min length (256 ^ width - 1))

/-- One write of a transaction: `keylen(2) key present(1) [vallen(4) val]`. -/
def encodeWrite (write : String × Option Bytes) : Bytes :=
  lengthBytes 2 (asBytes write.1).length ++ asBytes write.1 ++
    match write.2 with
    | some value => 1 :: lengthBytes 4 value.length ++ value
    | none => [0]

namespace Op

def tag (op : Op) : UInt8 :=
  match op.kind with
  | .set .. => 0
  | .incr .. => 1
  | .get _ => 2
  | .del _ => 3
  | .txn _ => 4

/-- The key in the op's header; a transaction has none. -/
def key (op : Op) : String :=
  match op.kind with
  | .set key _ | .incr key _ | .get key | .del key => key
  | .txn _ => ""

/-- What follows the header. -/
def encodeBody (op : Op) : Bytes :=
  match op.kind with
  | .set _ value => lengthBytes 4 value.length ++ value
  | .incr _ delta => leBytes 8 delta.toUInt64.toNat
  | .get _ | .del _ => []
  | .txn writes => lengthBytes 2 writes.length ++ writes.flatMap encodeWrite

/-- `tag(1) client(4) seq(8) keylen(2) key [vallen(4) val | delta(8) | count(2) writes]`. -/
def encode (op : Op) : Bytes :=
  [op.tag] ++ (leBytes 4 op.client.toNat ++ (leBytes 8 op.seq.toNat ++
    (lengthBytes 2 (asBytes op.key).length ++ (asBytes op.key ++ op.encodeBody))))

end Op

/-- A length-prefixed UTF-8 key. -/
def readKey : Reader String := do
  let length ← u16
  let key ← bytes length
  ofOption (fromUtf8 key)

/-- A length-prefixed value. -/
def readValue : Reader Bytes := do
  let length ← u32
  bytes length.toNat

def readWrite : Reader (String × Option Bytes) := do
  let key ← readKey
  let present ← u8
  if present = 1 then
    let value ← readValue
    pure (key, some value)
  else
    pure (key, none)

def readKind (tag : UInt8) (key : String) : Reader OpKind :=
  match tag with
  | 0 => OpKind.set key <$> readValue
  | 1 => OpKind.incr key <$> i64
  | 2 => pure (OpKind.get key)
  | 3 => pure (OpKind.del key)
  | 4 => do
      let count ← u16
      OpKind.txn <$> times count readWrite
  | _ => ofOption none

def readOp : Reader Op := do
  let tag ← u8
  let client ← u32
  let seq ← u64
  let key ← readKey
  let kind ← readKind tag key
  pure { client, seq, kind }

def Op.decode (input : Bytes) : Option Op := (readOp input).map Prod.fst

/-! ### The state machine -/

/-- A deterministic state machine replicated by replaying the op stream. -/
class StateMachine (S : Type) where
  default : S
  apply : S → Op → S × Output
  snapshot : S → Bytes
  restore : Bytes → S

/-- The `key → bytes` store with Redis semantics. -/
@[ext]
structure KvStore where
  map : BTreeMap String Bytes
  deriving DecidableEq

namespace KvStore

/-- A value read as an integer, the way `INCR` reads it. -/
def asInt (value : Bytes) : Option Int64 :=
  (fromUtf8 value).bind fun text => parseI64 (trim text.toList)

def getInt (store : KvStore) (key : String) : Option Int64 := store.map[key]?.bind asInt

/-- One write of a transaction: set, or delete. -/
def write (map : BTreeMap String Bytes) (entry : String × Option Bytes) : BTreeMap String Bytes :=
  match entry.2 with
  | some value => map.insert entry.1 value
  | none => map.erase entry.1

/-- The addition of `INCR` wraps: the release profile has no overflow checks. -/
def apply (store : KvStore) (op : Op) : KvStore × Output :=
  match op.kind with
  | .set key value => (⟨store.map.insert key value⟩, .ok)
  | .incr key delta =>
      let next := (store.getInt key).getD 0 + delta
      (⟨store.map.insert key (asBytes (showI64 next))⟩, .value (some next))
  | .del key =>
      (⟨store.map.erase key⟩, .value (some (if store.map.contains key then 1 else 0)))
  | .get key => (store, .bytes store.map[key]?)
  | .txn writes =>
      (⟨writes.foldl write store.map⟩, .value (some (Int64.ofNat writes.length)))

/-- One entry of a snapshot: `keylen(2) key vallen(4) val`. -/
def encodeEntry (entry : String × Bytes) : Bytes :=
  lengthBytes 2 (asBytes entry.1).length ++ (asBytes entry.1 ++
    (lengthBytes 4 entry.2.length ++ entry.2))

def snapshot (store : KvStore) : Bytes :=
  lengthBytes 4 store.map.size ++ store.map.toList.flatMap encodeEntry

/-- The raw key and value of one entry. -/
def readEntry : Reader (Bytes × Bytes) := do
  let length ← u16
  let key ← bytes length
  let value ← readValue
  pure (key, value)

/-- Up to `count` entries, stopping at the first that is cut short; a key that is not UTF-8 is
skipped. -/
def restoreEntries : Nat → Bytes → BTreeMap String Bytes → BTreeMap String Bytes
  | 0, _, map => map
  | count + 1, input, map =>
      match readEntry input with
      | none => map
      | some ((key, value), rest) =>
          restoreEntries count rest
            (match fromUtf8 key with
              | some key => map.insert key value
              | none => map)

def restore (input : Bytes) : KvStore :=
  match u32 input with
  | none => ⟨∅⟩
  | some (count, rest) => ⟨restoreEntries count.toNat rest ∅⟩

instance : StateMachine KvStore where
  default := ⟨∅⟩
  apply := apply
  snapshot := snapshot
  restore := restore

end KvStore

end OneBarrier
