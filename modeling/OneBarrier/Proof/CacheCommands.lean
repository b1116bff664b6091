import OneBarrier.Cache
import OneBarrier.Proof.Counters
import OneBarrier.Proof.Replies

/-!
# When a command takes effect

A command takes effect with the last op it comes to: a counter command with its increment, or with the
read that does not find the key, and a `get` with the last of its reads. As long as nobody disturbs it
up to there, its answer is the map's at that moment.
-/

namespace OneBarrier

open Wire Utf8 Text Rest

namespace Conv

variable {α β γ : Type}

/-- The result of a conversation with no calls left. -/
def result : Conv α → Option α
  | ret value => some value
  | apply .. | len _ => none

/-- The conversation never asks for the number of keys. -/
def Uncounted : Conv α → Prop
  | ret _ => True
  | apply _ next => ∀ answer, (next answer).Uncounted
  | len _ => False

theorem Uncounted.bind {conv : Conv α} {next : α → Conv β} (hconv : conv.Uncounted)
    (hnext : ∀ value, (next value).Uncounted) : (conv.bind next).Uncounted := by
  induction conv with
  | ret value => exact hnext value
  | apply op after ih => exact fun answer => ih answer (hconv answer)
  | len after ih => exact hconv.elim

theorem Reaches.uncounted {conv later : Conv α} {answers : List (Op × Option Output)}
    (hreaches : conv.Reaches answers later) (hconv : conv.Uncounted) : later.Uncounted := by
  induction hreaches with
  | start => exact hconv
  | apply answer _ ih => exact ih answer
  | len count _ ih => exact ih.elim

theorem bind_ret_bind (conv : Conv α) (first : α → β) (next : β → Conv γ) :
    (conv.bind fun value => ret (first value)).bind next
      = conv.bind fun value => next (first value) := by
  induction conv with
  | ret value => rfl
  | apply op after ih => exact congrArg (apply op) (funext ih)
  | len after ih => exact congrArg len (funext ih)

end Conv

namespace Memcache

/-! ### Commands as calls -/

theorem isIncr_iff {parts : List Bytes} : isIncr parts = true
    ↔ (name parts = asBytes "incr" ∨ name parts = asBytes "decr") ∧ 3 ≤ parts.length := by
  rw [isIncr, Bool.and_eq_true, Bool.or_eq_true, decide_eq_true_eq, decide_eq_true_eq,
    decide_eq_true_eq]

theorem serve_storage {command : Command} (hstorage : isStorage command.parts = true)
    (hlong : ¬ command.parts.length < 5) (client : UInt32) (seq : UInt64) :
    serve client seq command
      = .apply ⟨client, seq + 1, .set (fromUtf8Lossy (command.parts.getD 1 [])) command.data⟩ fun _ =>
          .ret { conn := seq + 1
                 output := if command.parts.getLast? = some (asBytes "noreply") then []
                   else asBytes "STORED\r\n" } := by
  rw [serve]
  dsimp only
  rw [if_pos hstorage, if_neg hlong]
  rfl

theorem serve_delete {command : Command} (hname : name command.parts = asBytes "delete")
    (hlong : 2 ≤ command.parts.length) (client : UInt32) (seq : UInt64) :
    serve client seq command
      = .apply ⟨client, seq + 1, .del (fromUtf8Lossy (command.parts.getD 1 []))⟩ fun out =>
          match out with
          | some (.value (some 1)) => .ret { conn := seq + 1, output := asBytes "DELETED\r\n" }
          | _ => .ret { conn := seq + 1, output := asBytes "NOT_FOUND\r\n" } := by
  have hstorage : ¬ isStorage command.parts = true := by
    rw [isStorage, hname]
    decide
  have hget : ¬ (name command.parts = asBytes "get" ∨ name command.parts = asBytes "gets") := by
    rw [hname]
    decide
  have hincr : ¬ ((name command.parts = asBytes "incr" ∨ name command.parts = asBytes "decr")
      ∧ 3 ≤ command.parts.length) := by
    rw [hname]
    exact fun hboth => absurd hboth.1 (by decide)
  rw [serve]
  dsimp only
  rw [if_neg hstorage, if_neg hget, if_neg hincr, if_pos ⟨hname, hlong⟩]
  rfl

/-- What a command that makes a call is. -/
theorem callOf_cases {command : Command} {call : Call} (hcall : callOf command = some call) :
    (isStorage command.parts = true ∧ ¬ command.parts.length < 5
        ∧ call = .set (command.parts.getD 1 []) command.data
          (command.parts.getLast? = some (asBytes "noreply")))
      ∨ ((name command.parts = asBytes "get" ∨ name command.parts = asBytes "gets")
        ∧ command.parts.tail ≠ [] ∧ call = .get command.parts.tail)
      ∨ (isIncr command.parts = true
        ∧ call = .count (command.parts.getD 1 []) (amount command.parts))
      ∨ (name command.parts = asBytes "delete" ∧ 2 ≤ command.parts.length
        ∧ call = .delete (command.parts.getD 1 [])) := by
  unfold callOf at hcall
  dsimp only at hcall
  split at hcall
  · split at hcall
    · cases hcall
    · exact .inl ⟨‹_›, ‹_›, (Option.some.inj hcall).symm⟩
  split at hcall
  · split at hcall
    · cases hcall
    · exact .inr (.inl ⟨‹_›, ‹_›, (Option.some.inj hcall).symm⟩)
  split at hcall
  · exact .inr (.inr (.inl ⟨‹_›, (Option.some.inj hcall).symm⟩))
  split at hcall
  · rename_i hdelete
    exact .inr (.inr (.inr ⟨hdelete.1, hdelete.2, (Option.some.inj hcall).symm⟩))
  · cases hcall

/-- A command that makes no call has no ops. -/
theorem serve_of_none {command : Command} (hcall : callOf command = none) (client : UInt32)
    (seq : UInt64) : ∃ turn, serve client seq command = .ret turn := by
  unfold callOf at hcall
  dsimp only at hcall
  rw [serve]
  dsimp only
  split at hcall
  · rename_i hstorage
    rw [if_pos hstorage]
    split at hcall
    · rename_i hshort
      rw [if_pos hshort]
      exact ⟨_, rfl⟩
    · cases hcall
  rename_i hstorage
  rw [if_neg hstorage]
  split at hcall
  · rename_i hget
    rw [if_pos hget]
    split at hcall
    · rename_i hempty
      rw [hempty]
      exact ⟨_, rfl⟩
    · cases hcall
  rename_i hget
  rw [if_neg hget]
  split at hcall
  · cases hcall
  rename_i hincr
  rw [isIncr_iff] at hincr
  rw [if_neg hincr]
  split at hcall
  · cases hcall
  rename_i hdelete
  rw [if_neg hdelete]
  split
  · exact ⟨_, rfl⟩
  split
  · exact ⟨_, rfl⟩
  · exact ⟨_, rfl⟩

theorem uncounted_getAll (client : UInt32) (seq : UInt64) (names : List Bytes) :
    (getAll client seq names).Uncounted := by
  induction names generalizing seq with
  | nil => trivial
  | cons name names ih =>
      refine fun answer => (ih (seq + 1)).bind fun result => ?_
      split
      split <;> exact trivial

theorem uncounted_serve (client : UInt32) (seq : UInt64) (command : Command) :
    (serve client seq command).Uncounted := by
  cases hcall : callOf command with
  | none =>
      obtain ⟨turn, hserve⟩ := serve_of_none hcall client seq
      rw [hserve]
      trivial
  | some call =>
      obtain ⟨hstorage, hlong, -⟩ | ⟨hname, -⟩ | ⟨hincr, -⟩ | ⟨hname, hlong, -⟩ := callOf_cases hcall
      · rw [serve_storage hstorage hlong]
        exact fun _ => trivial
      · rw [serve_get hname]
        exact (uncounted_getAll _ _ _).bind fun _ => trivial
      · rw [serve_incr hincr]
        intro answer
        dsimp only
        split
        · intro sum
          dsimp only
          split <;> trivial
        · trivial
      · rw [serve_delete hname hlong]
        intro answer
        dsimp only
        split <;> trivial

/-! ### The reads of a `get` -/

/-- What is written for a key, given the answer to its read. -/
def entryOf (name : Bytes) (out : Option Output) : Bytes :=
  match out with
  | some (.bytes (some value)) =>
      asBytes ("VALUE " ++ fromUtf8Lossy name ++ " 0 " ++ toString value.length ++ "\r\n") ++ value
        ++ asBytes "\r\n"
  | _ => []

def entriesOf (names : List Bytes) (answers : List (Op × Option Output)) : Bytes :=
  (names.zip answers).flatMap fun pair => entryOf pair.1 pair.2.2

theorem getAll_cons (client : UInt32) (seq : UInt64) (name : Bytes) (names : List Bytes)
    (turn : UInt64 × Bytes → Turn UInt64) :
    (getAll client seq (name :: names)).bind (fun result => .ret (turn result))
      = .apply ⟨client, seq + 1, .get (fromUtf8Lossy name)⟩ fun out =>
          (getAll client (seq + 1) names).bind fun result =>
            .ret (turn (result.1, entryOf name out ++ result.2)) := by
  refine congrArg (Conv.apply _) (funext fun out => ?_)
  refine Eq.trans ?_ (Conv.bind_ret_bind _ (fun result : UInt64 × Bytes =>
    (result.1, entryOf name out ++ result.2)) fun result => .ret (turn result))
  refine congrArg (fun conv : Conv (UInt64 × Bytes) => conv.bind fun result => .ret (turn result)) ?_
  refine congrArg (getAll client (seq + 1) names).bind (funext fun result => ?_)
  obtain ⟨last, later⟩ := result
  rcases out with _ | _ | _ | (_ | value) | _ <;> rfl

/-- A read of a `get` is of the key whose turn it is, and behind the last one comes the reply. -/
theorem reaches_getAll {client : UInt32} {seq : UInt64} {names : List Bytes}
    {turn : UInt64 × Bytes → Turn UInt64} {answers : List (Op × Option Output)} {op : Op}
    {next : Option Output → Conv (Turn UInt64)}
    (hreaches : ((getAll client seq names).bind fun result => .ret (turn result)).Reaches answers
      (.apply op next)) :
    ∃ front name back, names = front ++ name :: back ∧ op.kind = .get (fromUtf8Lossy name)
      ∧ answers.map (fun answer => answer.1.kind) = front.map (fun name => .get (fromUtf8Lossy name))
      ∧ (back = [] → ∀ out, ∃ last,
        next out = .ret (turn (last, entriesOf front answers ++ entryOf name out)))
      ∧ (back ≠ [] → ∀ out, (next out).result = none) := by
  induction names generalizing seq turn answers with
  | nil => cases (Conv.reaches_ret hreaches).2
  | cons name names ih =>
      rw [getAll_cons] at hreaches
      obtain ⟨rfl, hsame⟩ | ⟨answer, rest, rfl, hrest⟩ := Conv.reaches_apply hreaches
      · obtain ⟨rfl, rfl⟩ := Conv.apply.inj hsame
        refine ⟨[], name, names, rfl, rfl, rfl, ?_, fun hmore out => ?_⟩
        · rintro rfl out
          refine ⟨seq + 1, ?_⟩
          change Conv.ret (turn (seq + 1, entryOf name out ++ [])) = _
          rw [List.append_nil]
          rfl
        · cases names with
          | nil => exact absurd rfl hmore
          | cons other names =>
              dsimp only
              rw [getAll_cons]
              rfl
      · obtain ⟨front, last, back, rfl, hkind, hkinds, hend, hmore⟩ := ih hrest
        refine ⟨name :: front, last, back, rfl, hkind, ?_, fun hback out => ?_, hmore⟩
        · rw [List.map_cons, List.map_cons, hkinds]
        · obtain ⟨number, hnext⟩ := hend hback out
          refine ⟨number, hnext.trans ?_⟩
          rw [entriesOf, entriesOf, List.zip_cons_cons, List.flatMap_cons, List.append_assoc]

/-! ### Each command takes effect with one op -/

section Settles

variable {store : KvStore} {client : UInt32} {seq : UInt64} {command : Command}
  {answers : List (Op × Option Output)} {op : Op} {next : Option Output → Conv (Turn UInt64)}

/-- Taking the op ends the command, which is then answered as the map answers the call; or it goes on,
and the store is as before. -/
def Settles (store : KvStore) (call : Call) (op : Op) (next : Option Output → Conv (Turn UInt64)) :
    Prop :=
  match (next (some (store.apply op).2)).result with
  | some turn => respond (Map.of store) call = (Map.of (store.apply op).1, turn.output)
  | none => (store.apply op).1 = store

theorem Settles.goes_on {call : Call} (hsettles : Settles store call op next)
    (hresult : (next (some (store.apply op).2)).result = none) : (store.apply op).1 = store := by
  rw [Settles, hresult] at hsettles
  exact hsettles

theorem Settles.ends {call : Call} (hsettles : Settles store call op next) {turn : Turn UInt64}
    (hresult : (next (some (store.apply op).2)).result = some turn) :
    respond (Map.of store) call = (Map.of (store.apply op).1, turn.output) := by
  rw [Settles, hresult] at hsettles
  exact hsettles

theorem of_text {key : Bytes} (htext : IsText key) :
    Map.of store key = store.map[fromUtf8Lossy key]? := if_pos htext

theorem of_insert {key : Bytes} (htext : IsText key) (value : Bytes) :
    Map.of ⟨store.map.insert (fromUtf8Lossy key) value⟩
      = Function.update (Map.of store) key (some value) := by
  have hupdate := of_update (view_insert store (fromUtf8Lossy key) value)
  rwa [htext.asBytes_eq] at hupdate

theorem of_erase {key : Bytes} (htext : IsText key) :
    Map.of ⟨store.map.erase (fromUtf8Lossy key)⟩ = Function.update (Map.of store) key none := by
  have hupdate := of_update (view_erase store (fromUtf8Lossy key))
  rwa [htext.asBytes_eq] at hupdate

theorem settles_storage (hstorage : isStorage command.parts = true)
    (hlong : ¬ command.parts.length < 5) (htext : IsText (command.parts.getD 1 []))
    (hreaches : (serve client seq command).Reaches answers (.apply op next)) :
    Settles store (.set (command.parts.getD 1 []) command.data
      (command.parts.getLast? = some (asBytes "noreply"))) op next := by
  rw [serve_storage hstorage hlong] at hreaches
  obtain ⟨-, hsame⟩ | ⟨answer, rest, -, hrest⟩ := Conv.reaches_apply hreaches
  · obtain ⟨rfl, rfl⟩ := Conv.apply.inj hsame
    refine Prod.ext (of_insert htext command.data).symm ?_
    rw [respond]
    exact if_congr decide_eq_true_iff rfl rfl
  · cases (Conv.reaches_ret hrest).2

theorem settles_delete (hname : name command.parts = asBytes "delete")
    (hlong : 2 ≤ command.parts.length) (htext : IsText (command.parts.getD 1 []))
    (hreaches : (serve client seq command).Reaches answers (.apply op next)) :
    Settles store (.delete (command.parts.getD 1 [])) op next := by
  rw [serve_delete hname hlong] at hreaches
  obtain ⟨-, hsame⟩ | ⟨answer, rest, -, hrest⟩ := Conv.reaches_apply hreaches
  · obtain ⟨rfl, rfl⟩ := Conv.apply.inj hsame
    have hcontains : store.map.contains (fromUtf8Lossy (command.parts.getD 1 []))
        = (Map.of store (command.parts.getD 1 [])).isSome := by
      rw [of_text htext, Std.ExtTreeMap.isSome_getElem?_eq_contains]
    rw [Settles, KvStore.apply, respond, of_erase htext]
    dsimp only
    rw [hcontains]
    cases (Map.of store (command.parts.getD 1 [])).isSome <;> rfl
  · split at hrest <;> cases (Conv.reaches_ret hrest).2

/-- What the store reads as a counter. -/
theorem toInt_asInt (value : Bytes) : ((KvStore.asInt value).getD 0).toInt = word (integer value) := by
  rw [asInt_eq]
  cases integer value with
  | none => rfl
  | some count =>
      rw [Option.bind_some, word]
      split
      · rename_i hfits
        exact Int64.toInt_ofInt_of_le hfits.1 hfits.2
      · rfl

theorem toInt_parseI64 (token : Bytes) : (Memcache.parseI64 token).toInt
    = word ((fromUtf8 token).bind fun text => Rest.signed text.toList) := by
  rw [Memcache.parseI64]
  cases fromUtf8 token with
  | none => rfl
  | some text =>
      rw [Option.bind_some, Option.bind_some, Rest.parseI64_eq]
      cases Rest.signed text.toList with
      | none => rfl
      | some count =>
          rw [Option.bind_some, word]
          split
          · rename_i hfits
            exact Int64.toInt_ofInt_of_le hfits.1 hfits.2
          · rfl

/-- The sum of the code is the number the map goes on to. -/
theorem toInt_sum (value : Bytes) (command : Command) :
    ((KvStore.asInt value).getD 0 + (Access.memcache command).delta).toInt
      = nextCount value (amount command.parts) := by
  have hdelta : (Access.memcache command).delta
      = if name command.parts = asBytes "decr" then -Memcache.parseI64 (command.parts.getD 2 [])
        else Memcache.parseI64 (command.parts.getD 2 []) := if_congr decide_eq_true_iff rfl rfl
  rw [Int64.toInt_add, toInt_asInt, nextCount, amount, hdelta]
  split
  · rw [Int64.toInt_neg, toInt_parseI64, Int.add_bmod_bmod]
  · rw [toInt_parseI64]

/-- A counter command takes effect with the read that does not find the key, or with its increment. -/
theorem settles_count (hincr : isIncr command.parts = true)
    (htext : IsText (command.parts.getD 1 []))
    (hundisturbed : Undisturbed store command.parts answers op)
    (hreaches : (serve client seq command).Reaches answers (.apply op next)) :
    Settles store (.count (command.parts.getD 1 []) (amount command.parts)) op next := by
  have hkey : (Access.memcache command).key = command.parts.getD 1 [] := rfl
  rw [serve_incr hincr, hkey] at hreaches
  obtain ⟨-, hsame⟩ | ⟨answer, rest, -, hrest⟩ := Conv.reaches_apply hreaches
  · -- whether the key is there
    obtain ⟨rfl, rfl⟩ := Conv.apply.inj hsame
    have hvalue := @of_text store _ htext
    rw [Settles, KvStore.apply]
    dsimp only
    cases hstored : store.map[fromUtf8Lossy (command.parts.getD 1 [])]? with
    | none =>
        rw [hstored] at hvalue
        dsimp only [Conv.result]
        rw [respond, hvalue]
    | some value => rfl
  · split at hrest
    · obtain ⟨-, hsame⟩ | ⟨other, more, -, hmore⟩ := Conv.reaches_apply hrest
      · -- the increment
        obtain ⟨rfl, rfl⟩ := Conv.apply.inj hsame
        obtain ⟨hpresent, hsign⟩ := hundisturbed
        obtain ⟨value, hstored⟩ : ∃ value,
            store.map[fromUtf8Lossy (command.parts.getD 1 [])]? = some value := by
          rw [← Std.ExtTreeMap.isSome_getElem?_eq_contains] at hpresent
          exact Option.isSome_iff_exists.mp hpresent
        have hvalue := (@of_text store _ htext).trans hstored
        have hread : store.getInt (fromUtf8Lossy (command.parts.getD 1 [])) = KvStore.asInt value := by
          rw [KvStore.getInt, hstored, Option.bind_some]
        rw [hread] at hsign
        have hmax := max_zero_of_nonneg (Int64.le_iff_toInt_le.mp hsign)
        have hdigits : asBytes (showI64 ((KvStore.asInt value).getD 0 + (Access.memcache command).delta))
            = asBytes (toString (nextCount value (amount command.parts))) := by
          rw [showI64, toInt_sum]
        rw [Settles, KvStore.apply]
        dsimp only [Conv.result]
        rw [hread, respond, hvalue, hmax, of_insert htext, asBytes_append, hdigits]
      · split at hmore <;> cases (Conv.reaches_ret hmore).2
    · cases (Conv.reaches_ret hrest).2

theorem entryOf_eq {key : Bytes} (htext : IsText key) :
    entryOf key (some (.bytes store.map[fromUtf8Lossy key]?)) = entry (Map.of store) key := by
  rw [entry, of_text htext]
  cases store.map[fromUtf8Lossy key]? with
  | none => rfl
  | some value =>
      rw [entryOf]
      simp only [asBytes_append, htext.asBytes_eq, List.append_assoc]

/-- Reads that would be answered the same now show what the map has now. -/
theorem entriesOf_eq {names : List Bytes} (htext : ∀ key ∈ names, IsText key)
    (hkinds : answers.map (fun answer => answer.1.kind)
      = names.map fun name => .get (fromUtf8Lossy name))
    (hsame : ∀ answer ∈ answers, answer.2 = some (store.apply answer.1).2) :
    entriesOf names answers = names.flatMap (entry (Map.of store)) := by
  induction names generalizing answers with
  | nil => rfl
  | cons name names ih =>
      cases answers with
      | nil => cases hkinds
      | cons answer answers =>
          obtain ⟨hfirstKind, hkinds⟩ := List.cons.inj hkinds
          have hkind : answer.1.kind = .get (fromUtf8Lossy name) := hfirstKind
          obtain ⟨hfirst, hsame⟩ := List.forall_mem_cons.mp hsame
          obtain ⟨hname, htext⟩ := List.forall_mem_cons.mp htext
          have hread : answer.2 = some (.bytes store.map[fromUtf8Lossy name]?) := by
            rw [hfirst, KvStore.apply, hkind]
          have hlater := ih htext hkinds hsame
          rw [entriesOf] at hlater ⊢
          rw [List.zip_cons_cons, List.flatMap_cons, List.flatMap_cons, hlater, hread,
            entryOf_eq hname]

/-- A `get` takes effect with the last of its reads. -/
theorem settles_get (hname : name command.parts = asBytes "get" ∨ name command.parts = asBytes "gets")
    (htext : ∀ key ∈ command.parts.tail, IsText key)
    (hundisturbed : Undisturbed store command.parts answers op)
    (hreaches : (serve client seq command).Reaches answers (.apply op next)) :
    Settles store (.get command.parts.tail) op next := by
  rw [serve_get hname] at hreaches
  obtain ⟨front, last, back, hnames, hkind, hkinds, hend, hmore⟩ :=
    @reaches_getAll _ _ _ (fun result => { conn := result.1, output := result.2 ++ asBytes "END\r\n" })
      _ _ _ hreaches
  have hread : store.apply op = (store, .bytes store.map[fromUtf8Lossy last]?) := by
    rw [KvStore.apply, hkind]
  by_cases hback : back = []
  · obtain ⟨number, hnext⟩ := hend hback (some (store.apply op).2)
    have hlength : command.parts.length = answers.length + 2 := by
      have hfront := congrArg List.length hkinds
      have hwords := congrArg List.length hnames
      rw [List.length_map, List.length_map] at hfront
      rw [List.length_tail, List.length_append, hback, List.length_singleton] at hwords
      omega
    have hsame : ∀ answer ∈ answers, answer.2 = some (store.apply answer.1).2 := by
      rw [Undisturbed, hkind] at hundisturbed
      exact hundisturbed hlength
    rw [hnames] at htext ⊢
    obtain ⟨hfront, hlast⟩ := List.forall_mem_append.mp htext
    rw [Settles, hnext]
    refine Prod.ext (by rw [hread]; rfl) ?_
    rw [hread, respond, hback, List.flatMap_append, List.flatMap_singleton,
      entriesOf_eq hfront hkinds hsame, entryOf_eq (hlast last List.mem_cons_self)]
  · rw [Settles, hmore hback, hread]

/-- **Every command takes effect with one op.** -/
theorem settles_of_reaches {call : Call} (hcall : callOf command = some call)
    (htext : ∀ key ∈ call.keys, IsText key)
    (hundisturbed : Undisturbed store command.parts answers op)
    (hreaches : (serve client seq command).Reaches answers (.apply op next)) :
    Settles store call op next := by
  obtain ⟨hstorage, hlong, rfl⟩ | ⟨hname, -, rfl⟩ | ⟨hincr, rfl⟩ | ⟨hname, hlong, rfl⟩ :=
    callOf_cases hcall
  · exact settles_storage hstorage hlong (htext _ (List.mem_singleton_self _)) hreaches
  · exact settles_get hname htext hundisturbed hreaches
  · exact settles_count hincr (htext _ (List.mem_singleton_self _)) hundisturbed hreaches
  · exact settles_delete hname hlong (htext _ (List.mem_singleton_self _)) hreaches

end Settles

/-- A command that makes a call has an op to take first. -/
theorem result_serve {command : Command} {call : Call} (hcall : callOf command = some call)
    (client : UInt32) (seq : UInt64) : (serve client seq command).result = none := by
  obtain ⟨hstorage, hlong, -⟩ | ⟨hname, hkeys, -⟩ | ⟨hincr, -⟩ | ⟨hname, hlong, -⟩ := callOf_cases hcall
  · rw [serve_storage hstorage hlong]
    rfl
  · rw [serve_get hname]
    cases htail : command.parts.tail with
    | nil => exact absurd htail hkeys
    | cons key keys => rfl
  · rw [serve_incr hincr]
    rfl
  · rw [serve_delete hname hlong]
    rfl

end Memcache

end OneBarrier
