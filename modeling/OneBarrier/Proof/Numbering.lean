import OneBarrier.Server
import OneBarrier.Frontend.Http
import OneBarrier.Frontend.Memcache
import OneBarrier.Frontend.Resp
import OneBarrier.Frontend.StreamLog
import OneBarrier.Frontend.Txn

/-!
# How a connection numbers its ops

Every front-end counts up a sequence number for each op it issues. The number belongs to the
connection and is kept between requests, so the ops of one connection are numbered in the order it
issues them. One request does not keep to this: a RESP `DEL` of several keys issues all of its ops
under one number.
-/

namespace OneBarrier

open Wire

namespace Conv

variable {α β : Type} {client : UInt32} {base : UInt64} {post : Nat → α → Prop}

/-- The ops of a conversation are the client's and are numbered from `base` on, `used` of the
numbers being taken; `post` is what its result says about their number. -/
def Numbered (client : UInt32) (base : UInt64) (post : Nat → α → Prop) : Nat → Conv α → Prop
  | used, .ret value => post used value
  | used, .apply op next =>
      op.client = client ∧ op.seq = base + UInt64.ofNat (used + 1)
        ∧ ∀ out, (next out).Numbered client base post (used + 1)
  | used, .len next => ∀ count, (next count).Numbered client base post used

theorem Numbered.bind {after : Nat → β → Prop} {next : α → Conv β} {conv : Conv α} {used : Nat}
    (hconv : conv.Numbered client base post used)
    (hnext : ∀ used value, post used value → (next value).Numbered client base after used) :
    (conv >>= next).Numbered client base after used := by
  induction conv generalizing used with
  | ret value => exact hnext used value hconv
  | apply op rest ih =>
      obtain ⟨hclient, hseq, hrest⟩ := hconv
      exact ⟨hclient, hseq, fun out => ih out (hrest out)⟩
  | len rest ih => exact fun count => ih count (hconv count)

end Conv

@[simp]
theorem add_ofNat_zero (base : UInt64) : base + UInt64.ofNat 0 = base := UInt64.add_zero base

theorem add_ofNat_succ (base : UInt64) (used : Nat) :
    base + UInt64.ofNat (used + 1) = base + UInt64.ofNat used + 1 := by
  rw [UInt64.ofNat_add, ← UInt64.add_assoc]
  rfl

/-- What a request leaves of its connection's number: the number of its last op, or one number is
skipped by a request without ops. -/
def Leaves (base : UInt64) (used : Nat) (after : UInt64) : Prop :=
  after = base + UInt64.ofNat used ∨ used = 0 ∧ after = base + 1

/-- The number a front-end's connection counts up, and the requests that take a number for each of
their ops. -/
structure Numbering (frontend : Frontend) where
  seq : frontend.Conn → UInt64
  admits : frontend.Request → Bool
  serve : ∀ client conn request, admits request = true →
    (frontend.serve client conn request).Numbered client (seq conn)
      (fun used turn => Leaves (seq conn) used (seq turn.conn)) 0

/-! ### RESP -/

namespace Resp

/-- A `DEL` of more than one key. -/
def DeletesSeveral (args : List Bytes) : Prop :=
  (args.headD []).map Text.asciiUpper = Utf8.asBytes "DEL" ∧ 3 ≤ args.length

instance (args : List Bytes) : Decidable (DeletesSeveral args) := inferInstanceAs (Decidable (_ ∧ _))

theorem numbered_deleteAll {client : UInt32} {base : UInt64} {keys : List Bytes}
    (hkeys : keys.length ≤ 1) (count : Int64) :
    (deleteAll client (base + 1) keys count).Numbered client base (fun used _ => used ≤ 1) 0 := by
  match keys, hkeys with
  | [], _ => exact Nat.zero_le 1
  | [key], _ =>
      refine ⟨rfl, rfl, fun out => ?_⟩
      dsimp only [Conv.bind]
      split <;> exact Nat.le_refl 1

theorem numbered_dispatch {args : List Bytes} (hsingle : ¬ DeletesSeveral args) (client : UInt32)
    (base : UInt64) :
    (dispatch args client (base + 1)).Numbered client base (fun used _ => used ≤ 1) 0 := by
  have hone : ∀ reply : Reply, (pure reply : Conv Reply).Numbered client base
      (fun used _ => used ≤ 1) 1 := fun _ => Nat.le_refl 1
  have hnone : ∀ reply : Reply, (pure reply : Conv Reply).Numbered client base
      (fun used _ => used ≤ 1) 0 := fun _ => Nat.zero_le 1
  unfold dispatch
  extract_lets name key
  split
  · split <;> exact hnone _
  split
  · refine ⟨rfl, rfl, fun out => ?_⟩
    cases out <;> exact hone _
  split
  · refine ⟨rfl, rfl, fun out => ?_⟩
    dsimp only [Conv.bind]
    split <;> exact hone _
  split
  · split
    · exact hnone _
    · refine ⟨rfl, rfl, fun out => ?_⟩
      dsimp only [Conv.bind]
      split <;> exact hone _
  split
  · rename_i hdel
    have hkeys : args.tail.length ≤ 1 := by
      by_contra hmany
      rw [List.length_tail] at hmany
      exact hsingle ⟨hdel.1, by omega⟩
    exact (numbered_deleteAll hkeys 0).bind fun used count hused => hused
  split
  · exact fun count => hnone _
  split
  · exact hnone _
  split
  · exact hnone _
  split
  · exact hnone _
  split
  · exact hnone _
  · exact hnone _

theorem numbered_serve (client : UInt32) (seq : UInt64) {args : List Bytes}
    (hsingle : ¬ DeletesSeveral args) :
    (serve client seq args).Numbered client seq
      (fun used turn => Leaves seq used turn.conn) 0 := by
  rw [serve]
  split
  · exact .inl (add_ofNat_zero seq).symm
  · refine (numbered_dispatch hsingle client seq).bind fun used reply hused => ?_
    match used, hused with
    | 0, _ => exact .inr ⟨rfl, rfl⟩
    | 1, _ => exact .inl rfl

end Resp

/-! ### Memcached -/

namespace Memcache

theorem numbered_getAll (client : UInt32) (base : UInt64) (names : List Bytes) (used : Nat) :
    (getAll client (base + UInt64.ofNat used) names).Numbered client base
      (fun used result => result.1 = base + UInt64.ofNat used) used := by
  induction names generalizing used with
  | nil => rfl
  | cons name names ih =>
      refine ⟨rfl, (add_ofNat_succ base used).symm, fun out => ?_⟩
      have hlater := ih (used + 1)
      rw [add_ofNat_succ] at hlater
      refine hlater.bind fun last result hlast => ?_
      split
      split <;> exact hlast

theorem numbered_serve (client : UInt32) (seq : UInt64) (command : Command) :
    (serve client seq command).Numbered client seq
      (fun used turn => Leaves seq used turn.conn) 0 := by
  have htwo : seq + 2 = seq + UInt64.ofNat 2 := rfl
  rw [serve]
  dsimp only
  split
  · split
    · exact .inl (add_ofNat_zero seq).symm
    · exact ⟨rfl, rfl, fun _ => .inl rfl⟩
  split
  · have hall := numbered_getAll client seq command.parts.tail 0
    rw [add_ofNat_zero] at hall
    exact hall.bind fun used result hused => .inl hused
  split
  · refine ⟨rfl, rfl, fun out => ?_⟩
    dsimp only [Conv.bind]
    split
    · refine ⟨rfl, rfl, fun out => ?_⟩
      dsimp only [Conv.bind]
      split <;> exact .inl rfl
    · exact .inl rfl
  split
  · refine ⟨rfl, rfl, fun out => ?_⟩
    dsimp only [Conv.bind]
    split <;> exact .inl rfl
  split
  · exact .inl (add_ofNat_zero seq).symm
  split
  · exact .inl (add_ofNat_zero seq).symm
  · exact .inl (add_ofNat_zero seq).symm

end Memcache

/-! ### HTTP -/

namespace Http

theorem numbered_route (method path : List Char) (body : Bytes) (client : UInt32) (base : UInt64) :
    (route method path body client (base + 1)).Numbered client base (fun used _ => used ≤ 1) 0 := by
  have hone : ∀ answer : Nat × Bytes, (pure answer : Conv (Nat × Bytes)).Numbered client base
      (fun used _ => used ≤ 1) 1 := fun _ => Nat.le_refl 1
  unfold route
  extract_lets path incr
  split
  · refine ⟨rfl, rfl, fun out => ?_⟩
    dsimp only [Conv.bind]
    split <;> exact hone _
  split
  · refine ⟨rfl, rfl, fun out => ?_⟩
    dsimp only [Conv.bind]
    split <;> exact hone _
  split
  · refine ⟨rfl, rfl, fun out => ?_⟩
    dsimp only [Conv.bind]
    split <;> exact hone _
  split
  · refine ⟨rfl, rfl, fun out => ?_⟩
    dsimp only [Conv.bind]
    split <;> exact hone _
  · exact Nat.zero_le 1

theorem numbered_serve (client : UInt32) (seq : UInt64) (request : Request) :
    (serve client seq request).Numbered client seq
      (fun used turn => Leaves seq used turn.conn) 0 := by
  refine (numbered_route _ _ _ client seq).bind fun used answer hused => ?_
  match used, hused with
  | 0, _ => exact .inr ⟨rfl, rfl⟩
  | 1, _ => exact .inl rfl

end Http

/-! ### Transactions -/

namespace Txn

theorem numbered_write (client : UInt32) (conn : Conn) (entry : String × Option Bytes) :
    (write client conn entry).Numbered client conn.seq
      (fun used turn => Leaves conn.seq used turn.conn.seq) 0 := by
  rw [write]
  split
  · exact .inl (add_ofNat_zero conn.seq).symm
  · exact ⟨rfl, rfl, fun _ => .inl rfl⟩

theorem numbered_serve (client : UInt32) (conn : Conn) (parts : List (List Char)) :
    (serve client conn parts).Numbered client conn.seq
      (fun used turn => Leaves conn.seq used turn.conn.seq) 0 := by
  rw [serve]
  dsimp only
  split
  · exact .inl (add_ofNat_zero conn.seq).symm
  split
  · exact numbered_write client conn _
  split
  · exact numbered_write client conn _
  split
  · refine ⟨rfl, rfl, fun out => ?_⟩
    dsimp only [Conv.bind]
    split <;> exact .inl rfl
  split
  · split
    · exact ⟨rfl, rfl, fun _ => .inl rfl⟩
    · exact .inl (add_ofNat_zero conn.seq).symm
  split
  · exact .inl (add_ofNat_zero conn.seq).symm
  split
  · exact .inl (add_ofNat_zero conn.seq).symm
  · exact .inl (add_ofNat_zero conn.seq).symm

end Txn

/-! ### The streaming log -/

namespace StreamLog

theorem numbered_replay (client : UInt32) (topic : List Char) (base : UInt64) (count : Nat)
    (offset : Int64) (used : Nat) :
    (replay client topic count offset (base + UInt64.ofNat used)).Numbered client base
      (fun used result => result.1 = base + UInt64.ofNat used) used := by
  induction count generalizing offset used with
  | zero => rfl
  | succ count ih =>
      refine ⟨rfl, (add_ofNat_succ base used).symm, fun out => ?_⟩
      have hlater := ih (offset + 1) (used + 1)
      rw [add_ofNat_succ] at hlater
      refine hlater.bind fun last result hlast => ?_
      split
      split <;> exact hlast

theorem numbered_serve (client : UInt32) (seq : UInt64) (parts : List (List Char)) :
    (serve client seq parts).Numbered client seq
      (fun used turn => Leaves seq used turn.conn) 0 := by
  rw [serve]
  dsimp only
  split
  · refine ⟨rfl, rfl, fun out => ?_⟩
    dsimp only [Conv.bind]
    split
    · exact ⟨rfl, rfl, fun _ => .inl rfl⟩
    · exact .inl rfl
  split
  · refine ⟨rfl, rfl, fun out => ?_⟩
    exact (numbered_replay client _ seq _ _ 1).bind fun used result hused => .inl hused
  split
  · exact ⟨rfl, rfl, fun _ => .inl rfl⟩
  split
  · exact .inl (add_ofNat_zero seq).symm
  · exact .inl (add_ofNat_zero seq).symm

end StreamLog

/-! ### The five front-ends -/

inductive Protocol where
  | resp
  | memcache
  | http
  | txn
  | streamlog
  deriving DecidableEq

def Protocol.frontend : Protocol → Frontend
  | .resp => OneBarrier.resp
  | .memcache => OneBarrier.memcache
  | .http => OneBarrier.http
  | .txn => OneBarrier.txn
  | .streamlog => OneBarrier.streamlog

def Resp.numbering : Numbering resp where
  seq conn := conn
  admits := fun args : List Bytes => !decide (DeletesSeveral args)
  serve client conn _ hsingle := numbered_serve client conn (by simpa using hsingle)

def Memcache.numbering : Numbering memcache where
  seq conn := conn
  admits _ := true
  serve client conn command _ := numbered_serve client conn command

def Http.numbering : Numbering http where
  seq conn := conn
  admits _ := true
  serve client conn request _ := numbered_serve client conn request

def Txn.numbering : Numbering txn where
  seq conn := conn.seq
  admits _ := true
  serve client conn parts _ := numbered_serve client conn parts

def StreamLog.numbering : Numbering streamlog where
  seq conn := conn
  admits _ := true
  serve client conn parts _ := numbered_serve client conn parts

def Protocol.numbering : (protocol : Protocol) → Numbering protocol.frontend
  | .resp => Resp.numbering
  | .memcache => Memcache.numbering
  | .http => Http.numbering
  | .txn => Txn.numbering
  | .streamlog => StreamLog.numbering

end OneBarrier
