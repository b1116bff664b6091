import OneBarrier.App
import OneBarrier.Rest
import Mathlib.Data.Nat.Pairing

/-!
# A cache shared by its connections

What the commands of the Memcached front-end mean to its clients: each takes effect on one map, at one
moment between being sent and being answered. A counter command answers `NOT_FOUND` on a key that is
not there, and otherwise the number it stores.
-/

namespace OneBarrier

open Wire Utf8 Linear Rest

namespace Memcache

/-! ### Calls -/

inductive Call where
  | set (key data : Bytes) (noreply : Bool)
  | get (keys : List Bytes)
  | count (key : Bytes) (amount : Int)
  | delete (key : Bytes)
  deriving DecidableEq

def Call.keys : Call → List Bytes
  | set key _ _ | count key _ | delete key => [key]
  | get keys => keys

/-- An integer of 64 bits is itself, and anything else is zero. -/
def word : Option Int → Int
  | some value => if -2 ^ 63 ≤ value ∧ value < 2 ^ 63 then value else 0
  | none => 0

/-- The amount of a counter command. -/
def amount (parts : List Bytes) : Int :=
  let magnitude := word ((fromUtf8 (parts.getD 2 [])).bind fun text => Rest.signed text.toList)
  if name parts = asBytes "decr" then -magnitude else magnitude

/-- The call a command makes. `add` and `replace` are served as `set`; a command that lacks a word, or
is another, makes none. -/
def callOf (command : Command) : Option Call :=
  let parts := command.parts
  let key := parts.getD 1 []
  if isStorage parts then
    if parts.length < 5 then none
    else some (.set key command.data (parts.getLast? = some (asBytes "noreply")))
  else if name parts = asBytes "get" ∨ name parts = asBytes "gets" then
    if parts.tail = [] then none else some (.get parts.tail)
  else if isIncr parts then some (.count key (amount parts))
  else if name parts = asBytes "delete" ∧ 2 ≤ parts.length then some (.delete key)
  else none

/-! ### The map -/

/-- The number a counter goes on to, in 64 bits. -/
def nextCount (value : Bytes) (amount : Int) : Int := (word (integer value) + amount).bmod (2 ^ 64)

def entry (map : Map) (key : Bytes) : Bytes :=
  match map key with
  | some value =>
      asBytes "VALUE " ++ key ++ asBytes (" 0 " ++ toString value.length ++ "\r\n") ++ value
        ++ asBytes "\r\n"
  | none => []

/-- A call on the map, and its answer. -/
def respond (map : Map) : Call → Map × Bytes
  | .set key data noreply =>
      (Function.update map key (some data), if noreply then [] else asBytes "STORED\r\n")
  | .get keys => (map, keys.flatMap (entry map) ++ asBytes "END\r\n")
  | .count key amount =>
      match map key with
      | some value =>
          let digits := asBytes (toString (nextCount value amount))
          (Function.update map key (some digits), digits ++ asBytes "\r\n")
      | none => (map, asBytes "NOT_FOUND\r\n")
  | .delete key =>
      (Function.update map key none,
        asBytes (if (map key).isSome then "DELETED\r\n" else "NOT_FOUND\r\n"))

/-! ### What the front-end gets right -/

/-- The op a command has come to is not disturbed by what others did since its first: an increment finds
its key still there, and comes to a number that is not negative; and at the last read of a `get` all
earlier ones would be answered as they were. -/
def Undisturbed (store : KvStore) (parts : List Bytes) (answers : List (Op × Option Output)) (op : Op) :
    Prop :=
  match op.kind with
  | .incr key delta => store.map.contains key = true ∧ 0 ≤ (store.getInt key).getD 0 + delta
  | .get _ => parts.length = answers.length + 2 →
      ∀ answer ∈ answers, answer.2 = some (store.apply answer.1).2
  | _ => True

instance (store : KvStore) (parts : List Bytes) (answers : List (Op × Option Output)) :
    (op : Op) → Decidable (Undisturbed store parts answers op)
  | ⟨_, _, .incr _ _⟩ => inferInstanceAs (Decidable (_ ∧ _))
  | ⟨_, _, .get _⟩ => inferInstanceAs (Decidable (_ → _))
  | ⟨_, _, .set _ _⟩ | ⟨_, _, .del _⟩ | ⟨_, _, .txn _⟩ => isTrue trivial

end Memcache

open Memcache

/-! ### What the connections see -/

/-- Calls are numbered by their connection and by the requests it has served before. -/
def Thread.callId (thread : Thread memcache) : Nat :=
  Nat.pair thread.client.toNat thread.earlier.length

namespace World

/-- What the clients see of an event. -/
def shows (world : World memcache) : WorldEvent memcache → List (Linear.Action Call Bytes)
  | .request handle request =>
      match (world.threads handle).phase, callOf request with
      | .idle, some call => [.invoke (world.threads handle).callId call]
      | _, _ => []
  | .reply handle =>
      match (world.threads handle).phase, (world.threads handle).request.bind callOf with
      | .serving (.ret turn), some _ => [.respond (world.threads handle).callId turn.output]
      | _, _ => []
  | _ => []

end World

end OneBarrier
