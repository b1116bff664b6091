import OneBarrier.AppJepsen
import OneBarrier.Lib.Decimal
import OneBarrier.Proof.Linearizability
import Mathlib.Data.List.Nodup

/-!
# What the harness may conclude

The requests on the register take effect one after another, each with a time between its call and its
return, and those that were recorded keep that order. A read that was recorded reads the latest write
of all, so that leaving out what was not recorded changes what it has to read exactly if that write
was left out.
-/

namespace OneBarrier.Linearizability

/-- Actions of which some are left out stay legal, if no read that is left reads what was left out.
`Kept` holds of the values that do not come from what was left out. -/
theorem Legal.filterMap {ε : Type} {action : ε → Action} {op : ε → Option LinOp}
    {entries : List ε} {value kept : Int64} (hlegal : Legal value (entries.map action))
    (Kept : Int64 → Prop) (hvalue : Kept value → kept = value)
    (hop : ∀ entry ∈ entries, ∀ recorded, op entry = some recorded →
      recorded.action = action entry)
    (hread : ∀ entry ∈ entries, op entry ≠ none → ∀ read, action entry = .read read → Kept read)
    (hwrite : ∀ entry ∈ entries, op entry = none → ∀ written, action entry = .write written →
      ¬ Kept written) :
    Legal kept ((entries.filterMap op).map LinOp.action) := by
  induction entries generalizing value kept with
  | nil => trivial
  | cons entry entries ih =>
      obtain ⟨hvalid, hlater⟩ := hlegal
      have hrest := @ih (apply (action entry) value)
      have hops := fun other hother => hop other (List.mem_cons_of_mem _ hother)
      have hreads := fun other hother => hread other (List.mem_cons_of_mem _ hother)
      have hwrites := fun other hother => hwrite other (List.mem_cons_of_mem _ hother)
      cases hentry : op entry with
      | none =>
          rw [List.filterMap_cons_none hentry]
          refine hrest hlater ?_ hops hreads hwrites
          cases haction : action entry with
          | read read => exact hvalue
          | write written =>
              exact fun hkept => absurd hkept (hwrite entry List.mem_cons_self hentry written haction)
      | some recorded =>
          have hrecorded := hop entry List.mem_cons_self recorded hentry
          rw [List.filterMap_cons_some hentry, List.map_cons, hrecorded]
          cases haction : action entry with
          | read read =>
              rw [haction] at hvalid hlater hrest
              have hkept : Kept value := by
                rw [← beq_iff_eq.mp hvalid]
                exact hread entry List.mem_cons_self (by simp [hentry]) read haction
              refine ⟨?_, hrest hlater hvalue hops hreads hwrites⟩
              rw [hvalue hkept]
              exact hvalid
          | write written =>
              rw [haction] at hlater hrest
              exact ⟨rfl, hrest hlater (fun _ => rfl) hops hreads hwrites⟩

theorem legal_append {value : Int64} {actions more : List Action} :
    Legal value (actions ++ more)
      ↔ Legal value actions ∧ Legal (actions.foldl (fun value action => apply action value) value) more := by
  induction actions generalizing value with
  | nil => exact (iff_of_eq (true_and _)).symm
  | cons action actions ih => rw [List.cons_append, Legal, Legal, ih, and_assoc, List.foldl_cons]

/-- What a legal history reads is the initial value or written in it. -/
theorem Legal.mem_write {value read : Int64} {actions : List Action} (hlegal : Legal value actions)
    (hread : .read read ∈ actions) : read = value ∨ .write read ∈ actions := by
  induction actions generalizing value with
  | nil => cases hread
  | cons action actions ih =>
      obtain ⟨hvalid, hlater⟩ := hlegal
      rcases List.mem_cons.mp hread with rfl | hmem
      · exact .inl (beq_iff_eq.mp hvalid)
      · rcases ih hlater hmem with hvalue | hwrite
        · cases action with
          | read other => exact .inl hvalue
          | write written => exact .inr (List.mem_cons.mpr (.inl (congrArg Action.write hvalue)))
        · exact .inr (List.mem_cons_of_mem _ hwrite)

end OneBarrier.Linearizability

namespace OneBarrier.AppJepsen

open Wire Utf8 Text Linearizability

/-! ### Replies -/

theorem splitCrlf_append {text : List Char} (htext : '\r' ∉ text) (rest : List Char) :
    splitCrlf (text ++ '\r' :: '\n' :: rest) = text :: splitCrlf rest := by
  induction text with
  | nil => rfl
  | cons char text ih =>
      rw [List.mem_cons, not_or] at htext
      obtain ⟨hchar, htail⟩ := htext
      rw [List.cons_append, splitCrlf, ih htail]
      · rfl
      · intro more hsame
        exact absurd hsame (Ne.symm hchar)

/-- What a request to read would be answered. -/
def registered (register : Option Bytes) : Int64 := parseGet (respond register .get).2

theorem registered_none : registered none = 0 := by decide +kernel

theorem notMem_toString (number : Nat) : '\r' ∉ (toString number).toList := by
  intro hmem
  rw [toList_toString_nat] at hmem
  exact absurd (Nat.isDigit_of_mem_toDigits (by decide) (by decide) hmem) (by decide)

theorem notMem_showI64 (value : Int64) : '\r' ∉ (showI64 value).toList := by
  intro hmem
  rcases mem_showI64 hmem with hdigit | hsign
  · exact absurd hdigit (by decide)
  · exact absurd hsign (by decide)

/-- The parts of a bulk reply, as they are split. -/
theorem parseGet_bulk {size value : String} (hsize : '\r' ∉ size.toList) (hvalue : '\r' ∉ value.toList)
    (hsign : size.toList.head? ≠ some '-') :
    parseGet (asBytes ("$" ++ size ++ "\r\n" ++ value ++ "\r\n"))
      = (parseI64 value.toList).getD 0 := by
  have htext : ("$" ++ size ++ "\r\n" ++ value ++ "\r\n").toList
      = ('$' :: size.toList) ++ '\r' :: '\n' :: (value.toList ++ '\r' :: '\n' :: []) := by
    simp only [String.toList_append]
    simp
  have hmark : '\r' ∉ '$' :: size.toList := by
    rw [List.mem_cons, not_or]
    exact ⟨by decide, hsize⟩
  rw [parseGet, fromUtf8Lossy_asBytes, htext, if_neg, splitCrlf_append hmark,
    splitCrlf_append hvalue]
  · rfl
  · intro hprefix
    cases hchars : size.toList with
    | nil =>
        rw [hchars] at hprefix
        cases hprefix
    | cons char chars =>
        rw [hchars] at hprefix hsign
        have hhead := (List.isPrefixOf_iff_prefix.mp hprefix)
        rw [List.cons_append, List.cons_append] at hhead
        obtain ⟨-, htail⟩ := List.cons_prefix_cons.mp hhead
        exact hsign (congrArg some (List.cons_prefix_cons.mp htail).1.symm)

/-- A read gives the value whose text has been written. -/
theorem registered_showI64 (value : Int64) :
    registered (some (asBytes (showI64 value))) = value := by
  have hsign : ∀ number : Nat, (toString number).toList.head? ≠ some '-' := by
    intro number hhead
    obtain ⟨char, chars, hchars, hminus, -⟩ := toDigits_cons number
    rw [toList_toString_nat, hchars] at hhead
    exact hminus (Option.some.inj hhead)
  rw [registered, respond, ← asBytes_append, ← asBytes_append,
    parseGet_bulk (notMem_toString _) (notMem_showI64 value) (hsign _), parseI64_showI64,
    Option.getD_some]

/-! ### The values written -/

theorem writeValue_eq (cid seq : Nat) : writeValue cid seq = Int64.ofNat (cid * 1000000 + seq) := by
  rw [writeValue, Int64.ofNat_add, Int64.ofNat_mul]
  rfl

/-- A client's round in which it may write: the cap leaves each of them fewer rounds than there are
numbers. -/
structure Round (cid seq : Nat) : Prop where
  client : cid < nclients
  pos : 0 < seq
  le : seq ≤ regCap

theorem toInt_writeValue {cid seq : Nat} (hround : Round cid seq) :
    (writeValue cid seq).toInt = cid * 1000000 + seq := by
  have hcid := hround.client
  have hseq := hround.le
  unfold nclients at hcid
  unfold regCap at hseq
  rw [writeValue_eq, Int64.toInt_ofNat_of_lt (by omega)]
  push_cast
  rfl

theorem writeValue_ne_zero {cid seq : Nat} (hround : Round cid seq) : writeValue cid seq ≠ 0 := by
  intro hzero
  have hvalue := toInt_writeValue hround
  have hpos := hround.pos
  rw [hzero, Int64.toInt_zero] at hvalue
  omega

theorem writeValue_inj {cid seq cid' seq' : Nat} (hround : Round cid seq)
    (hround' : Round cid' seq') (hsame : writeValue cid seq = writeValue cid' seq') :
    cid = cid' ∧ seq = seq' := by
  have hvalue := toInt_writeValue hround
  rw [hsame, toInt_writeValue hround'] at hvalue
  have hseq := hround.le
  have hseq' := hround'.le
  unfold regCap at hseq hseq'
  omega

/-! ### The order in which requests take effect -/

/-- A request that has taken effect, with what has been recorded of it. -/
structure Effect where
  cid : Nat
  seq : Nat
  action : Action
  time : UInt64
  op : Option LinOp
  recorded : ∀ recorded, op = some recorded →
    recorded.action = action ∧ recorded.inv ≤ time ∧ time ≤ recorded.res

/-- The client's request has taken effect, and nothing is recorded of it. -/
def Done (order : List Effect) (cid : Nat) (action : Action) (inv res : UInt64) : Prop :=
  ∃ effect ∈ order, effect.cid = cid ∧ effect.op = none ∧ effect.action = action
    ∧ inv ≤ effect.time ∧ effect.time ≤ res

/-- No request of the client's round has taken effect. -/
def Fresh (order : List Effect) (cid seq : Nat) : Prop :=
  ∀ effect ∈ order, effect.cid = cid → effect.seq < seq

/-- Below the cap, every round of a client but the last few has been counted. -/
def Paced (state : State) (client : Client) (uncounted : Nat) : Prop :=
  state.regOps < regCap → client.seq ≤ state.regOps + uncounted

def Idle (client : Client) : Prop := client.inbox = none ∧ client.outbox = none

/-- What the place where a client stands says about its request. -/
def Standing (state : State) (order : List Effect) (cid : Nat) (client : Client) : Prop :=
  match client.pc with
  | .connect | .top => Idle client ∧ Paced state client 0
  | .writing | .check =>
      Idle client ∧ Paced state client 1 ∧ 0 < client.seq ∧ Fresh order cid client.seq
  | .send => Idle client ∧ Paced state client 1 ∧ Round cid client.seq ∧ Fresh order cid client.seq
  | .setting value inv =>
      inv ≤ state.clock ∧ Paced state client 1 ∧ Round cid client.seq
        ∧ value = writeValue cid client.seq
        ∧ (∀ reply, client.outbox = some reply → reply = asBytes "+OK\r\n")
        ∧ (client.inbox = some (.set (asBytes (showI64 value))) ∧ client.outbox = none
            ∧ Fresh order cid client.seq
          ∨ client.inbox = none ∧ Done order cid (.write value) inv state.clock)
  | .getting inv =>
      inv ≤ state.clock ∧ Paced state client 1
        ∧ (client.inbox = some .get ∧ client.outbox = none ∧ Fresh order cid client.seq
          ∨ client.inbox = none ∧ ∃ value, Done order cid (.read value) inv state.clock
            ∧ ∀ reply, client.outbox = some reply → parseGet reply = value)
  | .count op =>
      Idle client ∧ Paced state client 1 ∧ Done order cid op.action op.inv op.res
  | .push op =>
      Idle client ∧ Paced state client 0 ∧ Done order cid op.action op.inv op.res
  | .finished =>
      ∀ request, client.inbox = some request → Fresh order cid client.seq
        ∧ (request = .get ∨ Round cid client.seq
          ∧ request = .set (asBytes (showI64 (writeValue cid client.seq))))

/-- The order in which the requests have taken effect: each at a time, each once, as a register
answers them; and with it what has been recorded. -/
structure Serial (state : State) (order : List Effect) : Prop where
  standing : ∀ cid, Standing state order cid (state.clients cid)
  bound : ∀ effect ∈ order, effect.seq ≤ (state.clients effect.cid).seq
  times : order.Pairwise (fun earlier later => earlier.time ≤ later.time)
  past : ∀ effect ∈ order, effect.time ≤ state.clock
  once : (order.map fun effect => (effect.cid, effect.seq)).Nodup
  writes : ∀ effect ∈ order, ∀ value, effect.action = .write value →
    Round effect.cid effect.seq ∧ value = writeValue effect.cid effect.seq
  legal : Legal 0 (order.map Effect.action)
  register : registered state.register
    = (order.map Effect.action).foldl (fun value action => apply action value) 0
  hist : state.hist.Perm (order.filterMap Effect.op)

section Frame

variable {state state' : State} {order order' : List Effect} {cid : Nat}

theorem Paced.mono {client : Client} {uncounted : Nat} (hpaced : Paced state client uncounted)
    (hops : state.regOps ≤ state'.regOps) : Paced state' client uncounted :=
  fun hcap => (hpaced (Nat.lt_of_le_of_lt hops hcap)).trans (Nat.add_le_add_right hops _)

theorem Fresh.mono {seq : Nat} (hfresh : Fresh order cid seq)
    (hold : ∀ effect ∈ order', effect.cid = cid → effect ∈ order) : Fresh order' cid seq :=
  fun effect heffect hcid => hfresh effect (hold effect heffect hcid) hcid

theorem Done.mono {action : Action} {inv res res' : UInt64} (hdone : Done order cid action inv res)
    (hnew : ∀ effect ∈ order, effect.cid = cid → effect ∈ order') (hres : res ≤ res') :
    Done order' cid action inv res' := by
  obtain ⟨effect, heffect, hcid, hop, haction, hinv, htime⟩ := hdone
  exact ⟨effect, hnew effect heffect hcid, hcid, hop, haction, hinv, UInt64.le_trans htime hres⟩

/-- A client stands where it stood, whatever the others do. -/
theorem Standing.frame {client : Client} (hstanding : Standing state order cid client)
    (hclock : state.clock ≤ state'.clock)
    (hops : state.regOps ≤ state'.regOps)
    (hold : ∀ effect ∈ order', effect.cid = cid → effect ∈ order)
    (hnew : ∀ effect ∈ order, effect.cid = cid → effect ∈ order') :
    Standing state' order' cid client := by
  unfold Standing at hstanding ⊢
  cases hpc : client.pc with
  | connect | top =>
      simp only [hpc] at hstanding ⊢
      exact ⟨hstanding.1, hstanding.2.mono hops⟩
  | writing | check =>
      simp only [hpc] at hstanding ⊢
      obtain ⟨hidle, hpaced, hpos, hfresh⟩ := hstanding
      exact ⟨hidle, hpaced.mono hops, hpos, hfresh.mono hold⟩
  | send =>
      simp only [hpc] at hstanding ⊢
      obtain ⟨hidle, hpaced, hround, hfresh⟩ := hstanding
      exact ⟨hidle, hpaced.mono hops, hround, hfresh.mono hold⟩
  | setting value inv =>
      simp only [hpc] at hstanding ⊢
      obtain ⟨hinv, hpaced, hround, hvalue, hreply, hrequest⟩ := hstanding
      refine ⟨UInt64.le_trans hinv hclock, hpaced.mono hops, hround, hvalue, hreply, ?_⟩
      exact hrequest.imp (fun hsent => ⟨hsent.1, hsent.2.1, hsent.2.2.mono hold⟩)
        (fun hdone => ⟨hdone.1, hdone.2.mono hnew hclock⟩)
  | getting inv =>
      simp only [hpc] at hstanding ⊢
      obtain ⟨hinv, hpaced, hrequest⟩ := hstanding
      refine ⟨UInt64.le_trans hinv hclock, hpaced.mono hops, ?_⟩
      refine hrequest.imp (fun hsent => ⟨hsent.1, hsent.2.1, hsent.2.2.mono hold⟩) ?_
      rintro ⟨hinbox, value, hdone, hreply⟩
      exact ⟨hinbox, value, hdone.mono hnew hclock, hreply⟩
  | count op =>
      simp only [hpc] at hstanding ⊢
      obtain ⟨hidle, hpaced, hdone⟩ := hstanding
      exact ⟨hidle, hpaced.mono hops, hdone.mono hnew (UInt64.le_refl _)⟩
  | push op =>
      simp only [hpc] at hstanding ⊢
      obtain ⟨hidle, hpaced, hdone⟩ := hstanding
      exact ⟨hidle, hpaced.mono hops, hdone.mono hnew (UInt64.le_refl _)⟩
  | finished =>
      simp only [hpc] at hstanding ⊢
      intro request hrequest
      obtain ⟨hfresh, hkind⟩ := hstanding request hrequest
      exact ⟨hfresh.mono hold, hkind⟩

end Frame

/-! ### One step -/

namespace State

variable (state : State) (cid : Nat) (client : Client)

@[simp]
theorem set_clients_self : (state.set cid client).clients cid = client := by
  unfold set
  exact Function.update_self ..

theorem set_clients_of_ne {other : Nat} (hother : other ≠ cid) :
    (state.set cid client).clients other = state.clients other := by
  unfold set
  exact Function.update_of_ne hother ..

theorem goto_clients_self (pc : Pc) :
    (state.goto cid pc).clients cid = { state.clients cid with pc } :=
  state.set_clients_self cid _

end State

section Keep

variable {state state' : State} {order : List Effect}

/-- A step by which no request takes effect and nothing is recorded. -/
theorem Serial.keep (hserial : Serial state order) (cid : Nat)
    (hothers : ∀ other, other ≠ cid → state'.clients other = state.clients other)
    (hclock : state.clock ≤ state'.clock) (hregister : state'.register = state.register)
    (hhist : state'.hist = state.hist) (hops : state.regOps ≤ state'.regOps)
    (hseq : (state.clients cid).seq ≤ (state'.clients cid).seq)
    (hstanding : Standing state' order cid (state'.clients cid)) : Serial state' order where
  standing := by
    intro other
    by_cases hother : other = cid
    · rw [hother]
      exact hstanding
    · rw [hothers other hother]
      exact (hserial.standing other).frame hclock hops
        (fun effect heffect _ => heffect) (fun effect heffect _ => heffect)
  bound := by
    intro effect heffect
    have hbound := hserial.bound effect heffect
    by_cases hother : effect.cid = cid
    · rw [hother] at hbound ⊢
      exact hbound.trans hseq
    · rwa [hothers effect.cid hother]
  times := hserial.times
  past := fun effect heffect => UInt64.le_trans (hserial.past effect heffect) hclock
  once := hserial.once
  writes := hserial.writes
  legal := hserial.legal
  register := by rw [hregister, hserial.register]
  hist := by
    rw [hhist]
    exact hserial.hist

/-- A step of the main thread or of the clock. -/
theorem Serial.keepAll (hserial : Serial state order) (hclients : state'.clients = state.clients)
    (hclock : state.clock ≤ state'.clock) (hregister : state'.register = state.register)
    (hhist : state'.hist = state.hist) (hops : state'.regOps = state.regOps) :
    Serial state' order := by
  refine hserial.keep 0 (fun other _ => congrFun hclients other) hclock hregister hhist
    (Nat.le_of_eq hops.symm) (by rw [hclients]) ?_
  rw [hclients]
  exact (hserial.standing 0).frame hclock (Nat.le_of_eq hops.symm)
    (fun effect heffect _ => heffect) (fun effect heffect _ => heffect)

/-- A step of a client that keeps to itself. -/
theorem Serial.set (hserial : Serial state order) {cid : Nat} {client : Client}
    (hseq : (state.clients cid).seq ≤ client.seq)
    (hstanding : Standing state order cid client) : Serial (state.set cid client) order := by
  refine hserial.keep cid (fun other hother => state.set_clients_of_ne cid client hother)
    UInt64.le_rfl rfl rfl (Nat.le_refl _) ?_ ?_
  · rw [state.set_clients_self]
    exact hseq
  · rw [state.set_clients_self]
    exact hstanding

end Keep

section Client

variable {state state' : State} {order : List Effect} {cid : Nat}

/-- A client that has nothing under way stops. -/
theorem Serial.finish_idle (hserial : Serial state order) (hidle : Idle (state.clients cid)) :
    Serial (state.goto cid .finished) order := by
  refine hserial.set (Nat.le_refl _) fun request hrequest => ?_
  exact absurd (hidle.1.symm.trans hrequest) (by simp)

/-- A reply is read, or the connection is lost. -/
theorem receive_cases {ok : Bool} {next : Bytes → Pc}
    (hstep : receive state cid ok next = some state') :
    state' = state.goto cid .finished
      ∨ ∃ reply, (state.clients cid).outbox = some reply
        ∧ state' = state.set cid { state.clients cid with outbox := none, pc := next reply } := by
  unfold receive at hstep
  dsimp only at hstep
  split at hstep
  · obtain ⟨reply, houtbox, rfl⟩ := Option.map_eq_some_iff.mp hstep
    exact .inr ⟨reply, houtbox, rfl⟩
  · split at hstep
    · cases hstep
    · exact .inl (Option.some.inj hstep).symm

theorem Serial.setting (hserial : Serial state order) {value : Int64} {inv : UInt64} {ok : Bool}
    (hpc : (state.clients cid).pc = .setting value inv)
    (hstep : clientStep state cid ok = some state') : Serial state' order := by
  have hstanding := hserial.standing cid
  simp only [Standing, hpc] at hstanding
  obtain ⟨-, hpaced, hround, hvalue, hok, hrequest⟩ := hstanding
  simp only [clientStep, hpc] at hstep
  rcases receive_cases hstep with rfl | ⟨reply, hreply, rfl⟩
  · refine hserial.set (Nat.le_refl _) fun request hinbox => ?_
    rcases hrequest with ⟨hsent, -, hfresh⟩ | ⟨hnone, -⟩
    · refine ⟨hfresh, .inr ⟨hround, ?_⟩⟩
      rw [← hvalue]
      exact Option.some.inj (hinbox.symm.trans hsent)
    · exact absurd (hnone.symm.trans hinbox) (by simp)
  · refine hserial.set (Nat.le_refl _) ?_
    rcases hrequest with ⟨-, hnone, -⟩ | ⟨hinbox, hdone⟩
    · exact absurd (hnone.symm.trans hreply) (by simp)
    · rw [hok reply hreply, if_pos (by decide +kernel)]
      exact ⟨⟨hinbox, rfl⟩, hpaced, hdone⟩

theorem Serial.getting (hserial : Serial state order) {inv : UInt64} {ok : Bool}
    (hpc : (state.clients cid).pc = .getting inv)
    (hstep : clientStep state cid ok = some state') : Serial state' order := by
  have hstanding := hserial.standing cid
  simp only [Standing, hpc] at hstanding
  obtain ⟨-, hpaced, hrequest⟩ := hstanding
  simp only [clientStep, hpc] at hstep
  rcases receive_cases hstep with rfl | ⟨reply, hreply, rfl⟩
  · refine hserial.set (Nat.le_refl _) fun request hinbox => ?_
    rcases hrequest with ⟨hsent, -, hfresh⟩ | ⟨hnone, -⟩
    · exact ⟨hfresh, .inl (Option.some.inj (hinbox.symm.trans hsent))⟩
    · exact absurd (hnone.symm.trans hinbox) (by simp)
  · refine hserial.set (Nat.le_refl _) ?_
    rcases hrequest with ⟨-, hnone, -⟩ | ⟨hinbox, value, hdone, hvalue⟩
    · exact absurd (hnone.symm.trans hreply) (by simp)
    · rw [hvalue reply hreply]
      exact ⟨⟨hinbox, rfl⟩, hpaced, hdone⟩

/-- Every step of a client but the push leaves the order as it is. -/
theorem Serial.client (hserial : Serial state order) (hcid : cid < nclients) {ok : Bool}
    (hpush : ∀ op, (state.clients cid).pc ≠ .push op)
    (hstep : clientStep state cid ok = some state') : Serial state' order := by
  have hstanding := hserial.standing cid
  cases hpc : (state.clients cid).pc with
  | connect =>
      simp only [Standing, hpc] at hstanding
      simp only [clientStep, hpc, Option.some.injEq] at hstep
      subst hstep
      cases ok with
      | true => exact hserial.set (Nat.le_refl _) hstanding
      | false => exact hserial.finish_idle hstanding.1
  | top =>
      simp only [Standing, hpc] at hstanding
      obtain ⟨hidle, hpaced⟩ := hstanding
      simp only [clientStep, hpc] at hstep
      split at hstep
      · rw [← Option.some.inj hstep]
        refine hserial.set (Nat.le_succ _) ⟨hidle, fun hcap => ?_, Nat.succ_pos _, ?_⟩
        · exact Nat.succ_le_succ (hpaced hcap)
        · intro effect heffect hsame
          have hbound := hserial.bound effect heffect
          rw [hsame] at hbound
          exact Nat.lt_succ_of_le hbound
      · rw [← Option.some.inj hstep]
        exact hserial.finish_idle hidle
  | writing =>
      simp only [Standing, hpc] at hstanding
      simp only [clientStep, hpc] at hstep
      split at hstep
      · rw [← Option.some.inj hstep]
        exact hserial.set (Nat.le_refl _) hstanding
      · split at hstep
        · cases hstep
        · rw [← Option.some.inj hstep]
          exact hserial.finish_idle hstanding.1
  | check =>
      simp only [Standing, hpc] at hstanding
      obtain ⟨hidle, hpaced, hpos, hfresh⟩ := hstanding
      simp only [clientStep, hpc, Option.some.injEq] at hstep
      subst hstep
      by_cases hcap : state.regOps < regCap
      · rw [if_pos hcap]
        refine hserial.set (Nat.le_refl _) ⟨hidle, hpaced, ⟨hcid, hpos, ?_⟩, hfresh⟩
        exact (hpaced hcap).trans hcap
      · rw [if_neg hcap]
        exact hserial.set (Nat.le_refl _) ⟨hidle, fun hlow => absurd hlow hcap⟩
  | send =>
      simp only [Standing, hpc] at hstanding
      obtain ⟨hidle, hpaced, hround, hfresh⟩ := hstanding
      simp only [clientStep, hpc] at hstep
      split at hstep
      · rw [← Option.some.inj hstep]
        refine hserial.set (Nat.le_refl _) ⟨UInt64.le_rfl, hpaced, hround, rfl, ?_, .inl ?_⟩
        · intro reply hreply
          exact absurd (hidle.2.symm.trans hreply) (by simp)
        · exact ⟨rfl, hidle.2, hfresh⟩
      · rw [← Option.some.inj hstep]
        exact hserial.set (Nat.le_refl _) ⟨UInt64.le_rfl, hpaced, .inl ⟨rfl, hidle.2, hfresh⟩⟩
  | setting value inv => exact hserial.setting hpc hstep
  | getting inv => exact hserial.getting hpc hstep
  | count op =>
      simp only [Standing, hpc] at hstanding
      obtain ⟨hidle, hpaced, hdone⟩ := hstanding
      simp only [clientStep, hpc, Option.some.injEq] at hstep
      subst hstep
      refine hserial.keep cid (fun other hother => state.set_clients_of_ne cid _ hother)
        UInt64.le_rfl rfl rfl (Nat.le_succ _) ?_ ?_
      · dsimp only
        rw [state.goto_clients_self]
      · dsimp only
        rw [state.goto_clients_self]
        -- the round is counted now
        have hcounted : ∀ pc, Paced { state.goto cid pc with regOps := state.regOps + 1 }
            { state.clients cid with pc } 0 :=
          fun pc hcap => hpaced ((Nat.lt_succ_self _).trans hcap)
        split
        · exact ⟨hidle, hcounted _, hdone⟩
        · exact ⟨hidle, hcounted _⟩
  | push op => exact absurd hpc (hpush op)
  | finished =>
      simp only [clientStep, hpc] at hstep
      cases hstep

/-- What a client has finished is recorded. -/
theorem Serial.push (hserial : Serial state order) {op : LinOp} {ok : Bool}
    (hpc : (state.clients cid).pc = .push op) (hstep : clientStep state cid ok = some state') :
    ∃ order', Serial state' order' := by
  have hstanding := hserial.standing cid
  simp only [Standing, hpc] at hstanding
  obtain ⟨hidle, hpaced, effect, heffect, hcid, hop, haction, hinv, htime⟩ := hstanding
  simp only [clientStep, hpc, Option.some.injEq] at hstep
  subst hstep
  obtain ⟨before, after, rfl⟩ := List.append_of_mem heffect
  have hrecorded : ∀ recorded, some op = some recorded →
      recorded.action = effect.action ∧ recorded.inv ≤ effect.time ∧ effect.time ≤ recorded.res := by
    intro recorded hsame
    rw [← Option.some.inj hsame]
    exact ⟨haction.symm, hinv, htime⟩
  let known : Effect := { effect with op := some op, recorded := hrecorded }
  -- only what is recorded of the effect changes, and it is of no other client
  have hmem : ∀ other, other.cid ≠ cid →
      (other ∈ before ++ effect :: after ↔ other ∈ before ++ known :: after) := by
    intro other hother
    have heffect : other ≠ effect := fun hsame => hother (hsame ▸ hcid)
    have hknown : other ≠ known := fun hsame => hother (hsame ▸ hcid)
    simp [heffect, hknown]
  have hold : ∀ other ∈ before ++ known :: after, ∃ same ∈ before ++ effect :: after,
      same.cid = other.cid ∧ same.seq = other.seq ∧ same.action = other.action
        ∧ same.time = other.time := by
    intro other hother
    rcases List.mem_append.mp hother with hbefore | hcons
    · exact ⟨other, List.mem_append_left _ hbefore, rfl, rfl, rfl, rfl⟩
    · rcases List.mem_cons.mp hcons with rfl | hafter
      · exact ⟨effect, heffect, rfl, rfl, rfl, rfl⟩
      · exact ⟨other, List.mem_append_right _ (List.mem_cons_of_mem _ hafter), rfl, rfl, rfl, rfl⟩
  have hmap : ∀ {β : Type} (f : Effect → β), f known = f effect →
      (before ++ known :: after).map f = (before ++ effect :: after).map f := by
    intro β f hsame
    rw [List.map_append, List.map_append, List.map_cons, List.map_cons, hsame]
  have hseq : ∀ other, ((state.goto cid .top).clients other).seq = (state.clients other).seq := by
    intro other
    by_cases hother : other = cid
    · rw [hother, state.goto_clients_self]
    · exact congrArg Client.seq (state.set_clients_of_ne cid _ hother)
  refine ⟨before ++ known :: after, ?_, ?_, ?_, ?_, ?_, ?_, ?_, ?_, ?_⟩
  · intro other
    dsimp only
    by_cases hother : other = cid
    · rw [hother, state.goto_clients_self]
      exact ⟨hidle, hpaced⟩
    · rw [State.goto, state.set_clients_of_ne cid _ hother]
      refine (hserial.standing other).frame UInt64.le_rfl (Nat.le_refl _) ?_ ?_
      · exact fun mine hmine hsame => (hmem mine (by rwa [hsame])).mpr hmine
      · exact fun mine hmine hsame => (hmem mine (by rwa [hsame])).mp hmine
  · intro other hother
    obtain ⟨same, hsame, hcids, hseqs, -⟩ := hold other hother
    dsimp only
    rw [hseq, ← hcids, ← hseqs]
    exact hserial.bound same hsame
  · rw [← List.pairwise_map, hmap Effect.time rfl, List.pairwise_map]
    exact hserial.times
  · intro other hother
    obtain ⟨same, hsame, -, -, -, htimes⟩ := hold other hother
    rw [← htimes]
    exact hserial.past same hsame
  · rw [hmap (fun effect => (effect.cid, effect.seq)) rfl]
    exact hserial.once
  · intro other hother value hvalue
    obtain ⟨same, hsame, hcids, hseqs, hactions, -⟩ := hold other hother
    rw [← hcids, ← hseqs]
    exact hserial.writes same hsame value (hactions.trans hvalue)
  · rw [hmap Effect.action rfl]
    exact hserial.legal
  · rw [hmap Effect.action rfl]
    exact hserial.register
  · have hhist := hserial.hist
    rw [List.filterMap_append, List.filterMap_cons_none hop] at hhist
    rw [List.filterMap_append, List.filterMap_cons_some (show known.op = some op from rfl)]
    calc
      state.hist ++ [op] |>.Perm (op :: state.hist) := List.perm_append_singleton op state.hist
      _ |>.Perm (op :: (before.filterMap Effect.op ++ after.filterMap Effect.op)) := hhist.cons op
      _ |>.Perm (before.filterMap Effect.op ++ op :: after.filterMap Effect.op) :=
        List.perm_middle.symm

end Client

section Execute

variable {state state' : State} {order : List Effect} {cid : Nat}

theorem respond_get (register : Option Bytes) : (respond register .get).1 = register := by
  cases register <;> rfl

/-- A request that the server has not taken is the one of the client's round. -/
theorem Serial.pending (hserial : Serial state order) {request : Request}
    (hinbox : (state.clients cid).inbox = some request) :
    Fresh order cid (state.clients cid).seq
      ∧ (request = .get ∨ Round cid (state.clients cid).seq
        ∧ request = .set (asBytes (showI64 (writeValue cid (state.clients cid).seq)))) := by
  have hstanding := hserial.standing cid
  have hbusy : ¬ Idle (state.clients cid) := by
    rintro ⟨hnone, -⟩
    exact absurd (hnone.symm.trans hinbox) (by simp)
  cases hpc : (state.clients cid).pc with
  | connect | top | writing | check | send | count op | push op =>
      simp only [Standing, hpc] at hstanding
      exact absurd hstanding.1 hbusy
  | setting value inv =>
      simp only [Standing, hpc] at hstanding
      obtain ⟨-, -, hround, rfl, -, ⟨hsent, -, hfresh⟩ | ⟨hnone, -⟩⟩ := hstanding
      · exact ⟨hfresh, .inr ⟨hround, Option.some.inj (hinbox.symm.trans hsent)⟩⟩
      · exact absurd (hnone.symm.trans hinbox) (by simp)
  | getting inv =>
      simp only [Standing, hpc] at hstanding
      obtain ⟨-, -, ⟨hsent, -, hfresh⟩ | ⟨hnone, -⟩⟩ := hstanding
      · exact ⟨hfresh, .inl (Option.some.inj (hinbox.symm.trans hsent))⟩
      · exact absurd (hnone.symm.trans hinbox) (by simp)
  | finished =>
      simp only [Standing, hpc] at hstanding
      exact hstanding request hinbox

/-- The client's request as it takes effect now. -/
def effectNow (state : State) (cid : Nat) (action : Action) : Effect where
  cid := cid
  seq := (state.clients cid).seq
  action := action
  time := state.clock
  op := none
  recorded := by simp

theorem Serial.append (hserial : Serial state order) {action : Action} {register : Option Bytes}
    {client : Client} (hfresh : Fresh order cid (state.clients cid).seq)
    (hseq : client.seq = (state.clients cid).seq)
    (hvalid : valid action (registered state.register) = true)
    (hregister : registered register = apply action (registered state.register))
    (hwrite : ∀ value, action = .write value →
      Round cid (state.clients cid).seq ∧ value = writeValue cid (state.clients cid).seq)
    (hstanding : Standing state (order ++ [effectNow state cid action]) cid client) :
    Serial { state.set cid client with register } (order ++ [effectNow state cid action]) where
  standing := by
    intro other
    dsimp only
    by_cases hother : other = cid
    · rw [hother, state.set_clients_self]
      exact hstanding
    · rw [state.set_clients_of_ne cid client hother]
      refine (hserial.standing other).frame UInt64.le_rfl (Nat.le_refl _) ?_ ?_
      · intro effect heffect hsame
        rcases List.mem_append.mp heffect with hold | hnew
        · exact hold
        · rw [List.mem_singleton.mp hnew] at hsame
          exact absurd hsame.symm hother
      · exact fun effect heffect _ => List.mem_append_left _ heffect
  bound := by
    intro effect heffect
    dsimp only
    have hseqs : ((state.set cid client).clients effect.cid).seq
        = (state.clients effect.cid).seq := by
      by_cases hother : effect.cid = cid
      · rw [hother, state.set_clients_self, hseq]
      · rw [state.set_clients_of_ne cid client hother]
    rw [hseqs]
    rcases List.mem_append.mp heffect with hold | hnew
    · exact hserial.bound effect hold
    · rw [List.mem_singleton.mp hnew]
      exact Nat.le_refl _
  times := by
    refine List.pairwise_append.mpr ⟨hserial.times, List.pairwise_singleton _ _, ?_⟩
    intro earlier hearlier later hlater
    rw [List.mem_singleton.mp hlater]
    exact hserial.past earlier hearlier
  past := by
    intro effect heffect
    rcases List.mem_append.mp heffect with hold | hnew
    · exact hserial.past effect hold
    · rw [List.mem_singleton.mp hnew]
      exact UInt64.le_rfl
  once := by
    rw [List.map_append, List.nodup_append]
    refine ⟨hserial.once, List.nodup_singleton _, ?_⟩
    intro key hkey last hlast hsame
    obtain ⟨effect, heffect, rfl⟩ := List.mem_map.mp hkey
    rw [List.mem_singleton.mp hlast] at hsame
    obtain ⟨hcids, hseqs⟩ := Prod.mk.inj hsame
    exact Nat.ne_of_lt (hfresh effect heffect hcids) hseqs
  writes := by
    intro effect heffect value hvalue
    rcases List.mem_append.mp heffect with hold | hnew
    · exact hserial.writes effect hold value hvalue
    · rw [List.mem_singleton.mp hnew] at hvalue ⊢
      exact hwrite value hvalue
  legal := by
    rw [List.map_append, legal_append, ← hserial.register]
    exact ⟨hserial.legal, hvalid, trivial⟩
  register := by
    rw [List.map_append, List.foldl_append, ← hserial.register]
    exact hregister
  hist := by
    rw [List.filterMap_append]
    refine hserial.hist.trans (List.Perm.of_eq ?_)
    exact (List.append_nil _).symm

theorem done_append (state : State) (order : List Effect) (cid : Nat) (action : Action)
    {inv : UInt64} (hinv : inv ≤ state.clock) :
    Done (order ++ [effectNow state cid action]) cid action inv state.clock :=
  ⟨_, List.mem_append_right _ List.mem_cons_self, rfl, rfl, rfl, hinv, UInt64.le_rfl⟩

/-- A client whose read takes effect stands by it. -/
theorem standing_get (hserial : Serial state order)
    (hinbox : (state.clients cid).inbox = some .get) {outbox : Option Bytes}
    (houtbox : ∀ reply, outbox = some reply → reply = (respond state.register .get).2) :
    Standing state (order ++ [effectNow state cid (.read (registered state.register))]) cid
      { state.clients cid with inbox := none, outbox } := by
  have hstanding := hserial.standing cid
  have hbusy : ¬ Idle (state.clients cid) := by
    rintro ⟨hnone, -⟩
    exact absurd (hnone.symm.trans hinbox) (by simp)
  cases hpc : (state.clients cid).pc with
  | connect | top | writing | check | send | count op | push op =>
      simp only [Standing, hpc] at hstanding
      exact absurd hstanding.1 hbusy
  | setting value inv =>
      simp only [Standing, hpc] at hstanding
      obtain ⟨-, -, -, -, -, ⟨hsent, -⟩ | ⟨hnone, -⟩⟩ := hstanding
      · exact absurd (hsent.symm.trans hinbox) (by simp)
      · exact absurd (hnone.symm.trans hinbox) (by simp)
  | getting inv =>
      simp only [Standing, hpc] at hstanding ⊢
      obtain ⟨hinv, hpaced, -⟩ := hstanding
      refine ⟨hinv, hpaced, .inr ⟨trivial, _, done_append state order cid _ hinv, ?_⟩⟩
      intro reply hreply
      rw [houtbox reply hreply]
      rfl
  | finished =>
      simp only [Standing, hpc]
      intro request hrequest
      cases hrequest

/-- A client whose write takes effect stands by it. -/
theorem standing_set (hserial : Serial state order) {value : Bytes}
    (hinbox : (state.clients cid).inbox = some (.set value)) {outbox : Option Bytes}
    (houtbox : ∀ reply, outbox = some reply → reply = asBytes "+OK\r\n") :
    Standing state
      (order ++ [effectNow state cid (.write (writeValue cid (state.clients cid).seq))]) cid
      { state.clients cid with inbox := none, outbox } := by
  have hstanding := hserial.standing cid
  have hbusy : ¬ Idle (state.clients cid) := by
    rintro ⟨hnone, -⟩
    exact absurd (hnone.symm.trans hinbox) (by simp)
  cases hpc : (state.clients cid).pc with
  | connect | top | writing | check | send | count op | push op =>
      simp only [Standing, hpc] at hstanding
      exact absurd hstanding.1 hbusy
  | setting value inv =>
      simp only [Standing, hpc] at hstanding ⊢
      obtain ⟨hinv, hpaced, hround, rfl, -⟩ := hstanding
      exact ⟨hinv, hpaced, hround, rfl, houtbox,
        .inr ⟨trivial, done_append state order cid _ hinv⟩⟩
  | getting inv =>
      simp only [Standing, hpc] at hstanding
      obtain ⟨-, -, ⟨hsent, -⟩ | ⟨hnone, -⟩⟩ := hstanding
      · exact absurd (hsent.symm.trans hinbox) (by simp)
      · exact absurd (hnone.symm.trans hinbox) (by simp)
  | finished =>
      simp only [Standing, hpc]
      intro request hrequest
      cases hrequest

/-- A request takes effect. -/
theorem Serial.execute (hserial : Serial state order)
    (hstep : AppJepsen.execute state cid = some state') : ∃ order', Serial state' order' := by
  unfold AppJepsen.execute at hstep
  dsimp only at hstep
  split at hstep
  · obtain ⟨request, hinbox, rfl⟩ := Option.map_eq_some_iff.mp hstep
    obtain ⟨hfresh, hkind⟩ := hserial.pending hinbox
    rcases hkind with rfl | ⟨hround, rfl⟩
    · refine ⟨_, hserial.append hfresh rfl (beq_self_eq_true _) ?_ ?_
        (standing_get hserial hinbox ?_)⟩
      · rw [respond_get]
        rfl
      · intro value hvalue
        cases hvalue
      · intro reply hreply
        split at hreply
        · exact (Option.some.inj hreply).symm
        · cases hreply
    · refine ⟨_, hserial.append hfresh rfl rfl ?_ ?_ (standing_set hserial hinbox ?_)⟩
      · exact registered_showI64 _
      · intro value hvalue
        exact ⟨hround, (Action.write.inj hvalue).symm⟩
      · intro reply hreply
        split at hreply
        · exact (Option.some.inj hreply).symm
        · cases hreply
  · cases hstep

end Execute

/-! ### Runs -/

section Verdict

variable {state : State} {order : List Effect}

theorem serial_init : Serial .init [] where
  standing := fun _ => ⟨⟨rfl, rfl⟩, fun _ => Nat.le_refl _⟩
  bound := by simp
  times := List.Pairwise.nil
  past := by simp
  once := List.nodup_nil
  writes := by simp
  legal := trivial
  register := registered_none
  hist := List.Perm.refl _

/-- The clients and the main thread keep an order. -/
theorem Serial.next (hserial : Serial state order) {state' : State} {event : Event}
    (hstep : AppJepsen.next state event = some state') : ∃ order', Serial state' order' := by
  cases event with
  | tick time =>
      simp only [AppJepsen.next] at hstep
      split at hstep
      · rename_i hclock
        rw [← Option.some.inj hstep]
        exact ⟨order, hserial.keepAll rfl hclock rfl rfl rfl⟩
      · cases hstep
  | client cid ok =>
      simp only [AppJepsen.next] at hstep
      split at hstep
      · rename_i hcid
        by_cases hpush : ∀ op, (state.clients cid).pc ≠ .push op
        · exact ⟨order, hserial.client hcid hpush hstep⟩
        · obtain ⟨op, hop⟩ := not_forall_not.mp hpush
          exact hserial.push hop hstep
      · cases hstep
  | execute cid => exact hserial.execute hstep
  | stop | kill | recover | check res =>
      simp only [AppJepsen.next] at hstep
      split at hstep
      · rw [← Option.some.inj hstep]
        exact ⟨order, hserial.keepAll rfl UInt64.le_rfl rfl rfl rfl⟩
      · cases hstep

/-- The read after the recovery, as one that takes effect last. -/
def effectCheck (state : State) {res : UInt64} (hres : state.clock ≤ res) : Effect where
  cid := 0
  seq := 0
  action := .read (registered state.register)
  time := state.clock
  op := some
    { procId := 999, action := .read (registered state.register), inv := state.clock, res }
  recorded := by
    intro recorded hrecorded
    rw [← Option.some.inj hrecorded]
    exact ⟨rfl, UInt64.le_rfl, hres⟩

/-- What is recorded, in the order in which it took effect. -/
def kept (state : State) (order : List Effect) {res : UInt64} (hres : state.clock ≤ res) :
    List LinOp :=
  (order ++ [effectCheck state hres]).filterMap Effect.op

variable {res : UInt64}

theorem Serial.kept_perm (hserial : Serial state order) (hres : state.clock ≤ res) :
    (kept state order hres).Perm (state.extended res) := by
  rw [kept, List.filterMap_append]
  exact hserial.hist.symm.append_right _

theorem Serial.kept_pairwise (hserial : Serial state order) (hres : state.clock ≤ res) :
    (kept state order hres).Pairwise (fun earlier later => ¬ later.res < earlier.inv) := by
  have htimes : (order ++ [effectCheck state hres]).Pairwise
      (fun earlier later => earlier.time ≤ later.time) := by
    refine List.pairwise_append.mpr ⟨hserial.times, List.pairwise_singleton _ _, ?_⟩
    intro earlier hearlier later hlater
    rw [List.mem_singleton.mp hlater]
    exact hserial.past earlier hearlier
  refine List.pairwise_filterMap.mpr (htimes.imp ?_)
  intro earlier later htime first hfirst last hlast hlt
  obtain ⟨-, hinv, -⟩ := earlier.recorded first hfirst
  obtain ⟨-, -, hreturn⟩ := later.recorded last hlast
  exact UInt64.not_lt.mpr (UInt64.le_trans hinv (UInt64.le_trans htime hreturn)) hlt

/-- A write that is not recorded is of a value that no recorded one has. -/
theorem Serial.not_kept (hserial : Serial state order) (hres : state.clock ≤ res)
    {effect : Effect} (heffect : effect ∈ order ++ [effectCheck state hres])
    (hop : effect.op = none) {value : Int64} (hvalue : effect.action = .write value) :
    value ≠ 0 ∧ .write value ∉ (kept state order hres).map LinOp.action := by
  have hmem : ∀ other ∈ order ++ [effectCheck state hres], other.action = .write value →
      other ∈ order := by
    intro other hother hwrite
    rcases List.mem_append.mp hother with hold | hlast
    · exact hold
    · rw [List.mem_singleton.mp hlast] at hwrite
      cases hwrite
  obtain ⟨hround, hwritten⟩ := hserial.writes effect (hmem effect heffect hvalue) value hvalue
  refine ⟨?_, fun hkept => ?_⟩
  · rw [hwritten]
    exact writeValue_ne_zero hround
  · obtain ⟨op, hopmem, haction⟩ := List.mem_map.mp hkept
    obtain ⟨other, hother, hrecorded⟩ := List.mem_filterMap.mp hopmem
    have hotherValue : other.action = .write value :=
      (other.recorded op hrecorded).1.symm.trans haction
    have hold := hmem other hother hotherValue
    obtain ⟨hround', hwritten'⟩ := hserial.writes other hold value hotherValue
    obtain ⟨hcid, hseq⟩ := writeValue_inj hround hround' (hwritten.symm.trans hwritten')
    have hsame : effect = other :=
      List.inj_on_of_nodup_map hserial.once (hmem effect heffect hvalue) hold
        (Prod.ext hcid hseq)
    rw [← hsame, hop] at hrecorded
    cases hrecorded

theorem Serial.kept_legal (hserial : Serial state order) (hres : state.clock ≤ res)
    (hgrounded : Grounded (state.extended res)) :
    Legal 0 ((kept state order hres).map LinOp.action) := by
  have hperm := hserial.kept_perm hres
  have hfull : Legal 0 ((order ++ [effectCheck state hres]).map Effect.action) := by
    rw [List.map_append, legal_append, ← hserial.register]
    exact ⟨hserial.legal, beq_self_eq_true _, trivial⟩
  refine hfull.filterMap
    (fun value => value = 0 ∨ .write value ∈ (kept state order hres).map LinOp.action)
    (fun _ => rfl) (fun effect _ recorded hop => (effect.recorded recorded hop).1) ?_ ?_
  · intro effect heffect hop read hread
    obtain ⟨recorded, hrecorded⟩ := Option.ne_none_iff_exists'.mp hop
    by_cases hzero : read = 0
    · exact .inl hzero
    · refine .inr ((hperm.map LinOp.action).mem_iff.mpr (hgrounded read hzero ?_))
      refine (hperm.map LinOp.action).mem_iff.mp (List.mem_map.mpr ⟨recorded, ?_, ?_⟩)
      · exact List.mem_filterMap.mpr ⟨effect, heffect, hrecorded⟩
      · exact (effect.recorded recorded hrecorded).1.trans hread
  · intro effect heffect hop written hwritten hkept
    obtain ⟨hzero, hnot⟩ := hserial.not_kept hres heffect hop hwritten
    exact hkept.elim hzero hnot

/-- The check accepts what has been recorded exactly if what was read has been recorded. -/
theorem Serial.verdict (hserial : Serial state order) (hres : state.clock ≤ res) :
    isLinearizable (state.extended res) 0 = true ↔ Grounded (state.extended res) := by
  have hperm := hserial.kept_perm hres
  have hinterval : ∀ op ∈ state.extended res, op.inv ≤ op.res := by
    intro op hop
    obtain ⟨effect, -, hrecorded⟩ := List.mem_filterMap.mp (hperm.mem_iff.mpr hop)
    obtain ⟨-, hinv, hreturn⟩ := effect.recorded op hrecorded
    exact UInt64.le_trans hinv hreturn
  rw [isLinearizable_eq_true hinterval, ordered_range_iff]
  constructor
  · rintro ⟨linear, hlinear, -, hreads⟩ value hvalue hread
    have hactions := hlinear.map LinOp.action
    have hlegal := (readsLatest_iff_legal 0 _).mp hreads
    rcases hlegal.mem_write (hactions.mem_iff.mpr hread) with hzero | hwrite
    · exact absurd hzero hvalue
    · exact hactions.mem_iff.mp hwrite
  · intro hgrounded
    refine ⟨kept state order hres, hperm, hserial.kept_pairwise hres, ?_⟩
    rw [readsLatest_iff_legal]
    exact hserial.kept_legal hres hgrounded

theorem main_clientStep {cid : Nat} {ok : Bool} {state' : State}
    (hstep : clientStep state cid ok = some state') : state'.main = state.main := by
  cases hpc : (state.clients cid).pc with
  | setting value inv | getting inv =>
      simp only [clientStep, hpc] at hstep
      rcases receive_cases hstep with rfl | ⟨reply, -, rfl⟩ <;> rfl
  | connect | check | count op | push op | finished =>
      simp only [clientStep, hpc] at hstep
      cases hstep <;> rfl
  | top | send =>
      simp only [clientStep, hpc] at hstep
      split at hstep <;> cases hstep <;> rfl
  | writing =>
      simp only [clientStep, hpc] at hstep
      split at hstep
      · cases hstep
        rfl
      · split at hstep <;> cases hstep
        rfl

theorem main_execute {cid : Nat} {state' : State} (hstep : execute state cid = some state') :
    state'.main = state.main := by
  unfold execute at hstep
  dsimp only at hstep
  split at hstep
  · obtain ⟨request, -, rfl⟩ := Option.map_eq_some_iff.mp hstep
    rfl
  · cases hstep

/-- What is checked at the end is what has been recorded when it is checked. -/
theorem checked_next {event : Event} {state' : State} {history : List LinOp}
    (hstep : next state event = some state') (hchecked : state'.main = .checked history) :
    state.main = .checked history
      ∨ ∃ res, state.clock ≤ res ∧ history = state.extended res := by
  cases event with
  | client cid ok =>
      simp only [next] at hstep
      split at hstep
      · exact .inl ((main_clientStep hstep).symm.trans hchecked)
      · cases hstep
  | execute cid => exact .inl ((main_execute hstep).symm.trans hchecked)
  | check res =>
      simp only [next] at hstep
      split at hstep
      · rename_i hguard
        rw [← Option.some.inj hstep] at hchecked
        exact .inr ⟨res, hguard.2, (Main.checked.inj hchecked).symm⟩
      · cases hstep
  | tick time | stop | kill | recover =>
      simp only [next] at hstep
      split at hstep
      · rw [← Option.some.inj hstep] at hchecked
        first
          | exact .inl hchecked
          | cases hchecked
      · cases hstep

/-- The requests have an order, and a history that is checked is judged as it should be. -/
def Sound (state : State) : Prop :=
  (∃ order, Serial state order) ∧ ∀ history, state.main = .checked history →
    (isLinearizable history 0 = true ↔ Grounded history)

theorem Sound.step {event : Event} (hevent : Enabled state event) (hsound : Sound state) :
    Sound (step state event) := by
  obtain ⟨⟨order, hserial⟩, hverdict⟩ := hsound
  obtain ⟨state', hnext⟩ := Option.isSome_iff_exists.mp hevent
  rw [AppJepsen.step, hnext, Option.getD_some]
  refine ⟨hserial.next hnext, fun history hhistory => ?_⟩
  rcases checked_next hnext hhistory with hchecked | ⟨res, hres, rfl⟩
  · exact hverdict history hchecked
  · exact hserial.verdict hres

/-- **When the harness raises no alarm.** In every run, the history that is checked is accepted
exactly if every value that it has been read was written by an operation that is in it as well. -/
theorem accepts_iff_grounded (events : List Event)
    (hrun : Run.Guarded step Enabled .init events) {history : List LinOp}
    (hchecked : (Run.run step .init events).main = .checked history) :
    isLinearizable history 0 = true ↔ Grounded history := by
  have hsound : Sound (Run.run step .init events) := by
    refine Run.invariant_run Sound (fun state event => Sound.step) hrun ?_
    exact ⟨⟨[], serial_init⟩, fun history hhistory => by cases hhistory⟩
  exact hsound.2 history hchecked

/-- A client reads the register and writes it; the other connections fail. The write takes effect, and
what follows is up to how the connection ends. -/
def twoRounds (ending : List Event) : List Event :=
  (List.range 7).map (fun k => .client (k + 1) false)
    ++ List.replicate 5 (.client 0 true)
    ++ [.tick 1, .execute 0, .client 0 true, .client 0 true, .client 0 true]
    ++ [.tick 2, .client 0 true, .client 0 true, .client 0 true, .client 0 true, .execute 0]
    ++ ending

/-- The reply to the write arrives. -/
def answered : List Event :=
  twoRounds [.tick 3, .client 0 true, .client 0 true, .client 0 true, .stop, .client 0 true, .kill,
    .recover, .tick 5, .check 6]

/-- The server is killed before the reply arrives. -/
def unanswered : List Event :=
  twoRounds [.stop, .kill, .client 0 false, .recover, .tick 5, .check 6]

def reads : List LinOp :=
  [⟨0, .read 0, 0, 1⟩, ⟨999, .read 2, 5, 6⟩]

theorem accepts_answered :
    Run.Guarded step Enabled .init answered
      ∧ (isLinearizable [⟨0, .read 0, 0, 1⟩, ⟨0, .write 2, 2, 3⟩, ⟨999, .read 2, 5, 6⟩] 0 = true
        ↔ Grounded [⟨0, .read 0, 0, 1⟩, ⟨0, .write 2, 2, 3⟩, ⟨999, .read 2, 5, 6⟩]) :=
  ⟨by decide +kernel,
    accepts_iff_grounded answered (by decide +kernel) (by decide +kernel)⟩

/-- A write that took effect and was not answered is read after the recovery, and not recorded. -/
theorem alarm_unanswered :
    ¬ ∀ events, Run.Guarded step Enabled .init events → ∀ history,
      (Run.run step .init events).main = .checked history → isLinearizable history 0 = true := by
  intro haccepts
  have hrun : Run.Guarded step Enabled .init unanswered := by decide +kernel
  have hchecked : (Run.run step .init unanswered).main = .checked reads := by decide +kernel
  exact absurd (haccepts unanswered hrun reads hchecked) (by decide +kernel)

end Verdict

end OneBarrier.AppJepsen
