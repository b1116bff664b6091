import OneBarrier.App

/-!
# Requests that write nothing

For every front-end, the requests whose conversation cannot issue a write op.
-/

namespace OneBarrier

open Wire Input Utf8 Text

def Op.isWrite (op : Op) : Bool :=
  match op.kind with
  | .get _ => false
  | .set .. | .incr .. | .del _ | .txn _ => true

namespace Conv

variable {α β : Type}

/-- No write op is issued, whatever the answers. -/
def Silent : Conv α → Prop
  | ret _ => True
  | apply op next => op.isWrite = false ∧ ∀ answer, (next answer).Silent
  | len next => ∀ count, (next count).Silent

theorem silent_bind {conv : Conv α} {next : α → Conv β} (hnext : ∀ value, (next value).Silent) :
    (conv.bind next).Silent ↔ conv.Silent := by
  induction conv with
  | ret value => simp [bind, Silent, hnext]
  | apply op after ih => simp only [bind, Silent, ih]
  | len after ih => simp only [bind, Silent, ih]

theorem silent_bind_ret {conv : Conv α} {value : α → β} :
    (conv.bind fun result => ret (value result)).Silent ↔ conv.Silent :=
  silent_bind fun _ => trivial

theorem Silent.bind {conv : Conv α} {next : α → Conv β} (hconv : conv.Silent)
    (hnext : ∀ value, (next value).Silent) : (conv >>= next).Silent :=
  (silent_bind hnext).mpr hconv

theorem silent_applied {op : Op} {next : Option Output → Conv α} (hread : op.isWrite = false)
    (hnext : ∀ answer, (next answer).Silent) : (applied op >>= next).Silent :=
  ⟨hread, hnext⟩

theorem not_silent_apply {op : Op} {next : Option Output → Conv α} (hwrite : op.isWrite = true) :
    ¬ (apply op next).Silent := by
  intro hsilent
  rw [Silent, hwrite] at hsilent
  exact Bool.noConfusion hsilent.1

theorem silent_ite {condition : Prop} [Decidable condition] {first second : Conv α}
    {writes : Prop} (hfirst : condition → (first.Silent ↔ ¬ writes))
    (hsecond : ¬ condition → (second.Silent ↔ ¬ writes)) :
    (if condition then first else second).Silent ↔ ¬ writes := by
  split
  · exact hfirst ‹_›
  · exact hsecond ‹_›

end Conv

/-! ### Which requests write -/

namespace Resp

def writes (args : List Bytes) : Bool :=
  isWrite args && (!isIncr (name args) || (delta (name args) args).isSome)

theorem deleteAll_silent_iff (client : UInt32) (seq : UInt64) (keys : List Bytes) (count : Int64) :
    (deleteAll client seq keys count).Silent ↔ keys = [] := by
  cases keys with
  | nil => exact ⟨fun _ => rfl, fun _ => trivial⟩
  | cons key keys => exact ⟨fun hsilent => absurd hsilent (Conv.not_silent_apply rfl), by simp⟩

theorem isWrite_eq_false {args : List Bytes} (hset : ¬ (name args = asBytes "SET" ∧ 3 ≤ args.length))
    (hincr : ¬ (isIncr (name args) ∧ 2 ≤ args.length))
    (hdel : ¬ (name args = asBytes "DEL" ∧ 2 ≤ args.length)) : isWrite args = false := by
  simp only [isWrite, Bool.or_eq_false_iff, Bool.and_eq_false_iff, decide_eq_false_iff_not]
  grind

theorem dispatch_silent_iff (client : UInt32) (seq : UInt64) (args : List Bytes) :
    (dispatch args client seq).Silent ↔ ¬ writes args = true := by
  have hother : isWrite args = false → (True ↔ ¬ writes args = true) := by
    intro hwrite
    simp [writes, hwrite]
  rw [dispatch]
  refine Conv.silent_ite (fun hping => ?ping) fun _ => Conv.silent_ite (fun hset => ?set) fun hset =>
    Conv.silent_ite (fun hget => ?get) fun _ => Conv.silent_ite (fun hincr => ?incr) fun hincr =>
      Conv.silent_ite (fun hdel => ?del) fun hdel => ?rest
  case ping =>
    have hname : name args = asBytes "PING" := hping
    have hwrite : isWrite args = false := by
      refine isWrite_eq_false ?_ ?_ ?_ <;> rw [hname] <;> exact fun hboth => absurd hboth.1 (by decide)
    split <;> exact hother hwrite
  case set =>
    have hname : name args = asBytes "SET" := hset.1
    have hincr : isIncr (asBytes "SET") = false := by decide
    refine iff_of_false (Conv.not_silent_apply rfl) ?_
    simp [writes, isWrite, hname, hset.2, hincr]
  case get =>
    have hname : name args = asBytes "GET" := hget.1
    have hwrite : isWrite args = false := by
      refine isWrite_eq_false ?_ ?_ ?_ <;> rw [hname] <;> exact fun hboth => absurd hboth.1 (by decide)
    refine iff_of_true ⟨rfl, fun answer => ?_⟩ ((hother hwrite).mp trivial)
    rcases answer with _ | _ | _ | _ | _ <;> trivial
  case incr =>
    have hincr : isIncr (name args) = true ∧ 2 ≤ args.length := hincr
    have hwrite : isWrite args = true := by simp [isWrite, hincr.1, hincr.2]
    split
    · rename_i hdelta
      have hnone : delta (name args) args = none := hdelta
      exact iff_of_true trivial (by simp [writes, hincr.1, hnone])
    · rename_i value hdelta
      have hsome : delta (name args) args = some value := hdelta
      exact iff_of_false (Conv.not_silent_apply rfl) (by simp [writes, hwrite, hsome])
  case del =>
    have hname : name args = asBytes "DEL" := hdel.1
    have hincr : isIncr (asBytes "DEL") = false := by decide
    refine iff_of_false (fun hsilent => ?_) (by simp [writes, isWrite, hname, hdel.2, hincr])
    have hkeys := (deleteAll_silent_iff client seq args.tail 0).mp
      (Conv.silent_bind_ret.mp hsilent)
    have hlength := congrArg List.length hkeys
    rw [List.length_tail, List.length_nil] at hlength
    omega
  case rest =>
    have hsilent := hother (isWrite_eq_false hset hincr hdel)
    refine Conv.silent_ite (fun _ => ?_) fun _ => Conv.silent_ite (fun _ => hsilent) fun _ =>
      Conv.silent_ite (fun _ => hsilent) fun _ => Conv.silent_ite (fun _ => hsilent) fun _ =>
        Conv.silent_ite (fun _ => hsilent) fun _ => hsilent
    exact iff_of_true (fun _ => trivial) (hsilent.mp trivial)

theorem serve_silent_iff (client : UInt32) (seq : UInt64) (args : List Bytes) :
    (serve client seq args).Silent ↔ ¬ writes args = true := by
  refine Conv.silent_ite (fun hquit => ?_) fun _ => ?_
  · have hname : name args = asBytes "QUIT" := hquit
    have hwrite : isWrite args = false := by
      refine isWrite_eq_false ?_ ?_ ?_ <;> rw [hname] <;> exact fun hboth => absurd hboth.1 (by decide)
    exact iff_of_true trivial (by simp [writes, hwrite])
  · exact Conv.silent_bind_ret.trans (dispatch_silent_iff client (seq + 1) args)

end Resp

namespace Memcache

def writes (command : Command) : Bool :=
  (isStorage command.parts && 5 ≤ command.parts.length) || isIncr command.parts
    || (name command.parts = asBytes "delete" && 2 ≤ command.parts.length)

theorem getAll_silent (client : UInt32) (seq : UInt64) (names : List Bytes) :
    (getAll client seq names).Silent := by
  induction names generalizing seq with
  | nil => trivial
  | cons key names ih =>
      refine Conv.silent_applied rfl fun answer => (ih (seq + 1)).bind fun result => ?_
      rcases answer with _ | _ | _ | (_ | _) | _ <;> trivial

theorem writes_eq_false {parts : List Bytes} {data : Bytes}
    (hstorage : ¬ (isStorage parts ∧ 5 ≤ parts.length))
    (hincr : ¬ ((name parts = asBytes "incr" ∨ name parts = asBytes "decr") ∧ 3 ≤ parts.length))
    (hdelete : ¬ (name parts = asBytes "delete" ∧ 2 ≤ parts.length)) :
    ¬ writes { parts, data } = true := by
  simp only [writes, isIncr, Bool.or_eq_true, Bool.and_eq_true, decide_eq_true_eq]
  grind

theorem name_of_isStorage {parts : List Bytes} (hstorage : isStorage parts) :
    name parts = asBytes "set" ∨ name parts = asBytes "add" ∨ name parts = asBytes "replace" := by
  simpa [isStorage, or_assoc] using hstorage

theorem serve_silent_iff (client : UInt32) (seq : UInt64) (command : Command) :
    (serve client seq command).Silent ↔ ¬ writes command = true := by
  obtain ⟨parts, data⟩ := command
  rw [serve]
  dsimp only
  refine Conv.silent_ite (fun hstorage => Conv.silent_ite (fun hshort => ?short) fun hlong => ?store)
    fun hstorage => Conv.silent_ite (fun hget => ?get) fun _ => Conv.silent_ite (fun hincr => ?incr)
      fun hincr => Conv.silent_ite (fun hdelete => ?delete) fun hdelete => ?rest
  case short =>
    refine iff_of_true trivial (writes_eq_false (by omega) ?_ ?_)
    all_goals
      obtain hname | hname | hname := name_of_isStorage hstorage <;> rw [hname] <;>
        exact fun hboth => absurd hboth.1 (by decide)
  case store =>
    refine iff_of_false (Conv.not_silent_apply rfl) ?_
    have hfive : 5 ≤ parts.length := by omega
    simp [writes, hstorage, hfive]
  case get =>
    refine iff_of_true ((getAll_silent _ _ _).bind fun _ => trivial)
      (writes_eq_false (fun hboth => hstorage hboth.1) ?_ ?_)
    all_goals
      obtain hname | hname := hget <;> rw [hname] <;> exact fun hboth => absurd hboth.1 (by decide)
  case incr =>
    -- the increment follows once the key is found
    refine iff_of_false (fun hsilent => ?_) ?_
    · exact Conv.not_silent_apply rfl (hsilent.2 (some (.bytes (some []))))
    · simp [writes, isIncr, hincr.1, hincr.2]
  case delete =>
    refine iff_of_false (Conv.not_silent_apply rfl) ?_
    simp [writes, hdelete.1, hdelete.2]
  case rest =>
    have hquiet : ¬ writes { parts, data } = true :=
      writes_eq_false (fun hboth => hstorage hboth.1) hincr hdelete
    refine Conv.silent_ite (fun _ => ?_) fun _ => Conv.silent_ite (fun _ => ?_) fun _ => ?_
    all_goals exact iff_of_true trivial hquiet

end Memcache

namespace Http

def writes (method path : List Char) : Bool :=
  method = "POST".toList || method = "DELETE".toList
    || (method = "PUT".toList && !"/incr/".toList.isPrefixOf (path.takeWhile (· ≠ '?')))

theorem writes_eq_false {method path : List Char}
    (hset : ¬ ((method = "PUT".toList ∨ method = "POST".toList)
      ∧ ¬ "/incr/".toList.isPrefixOf (path.takeWhile (· ≠ '?'))))
    (hpost : ¬ method = "POST".toList) (hdelete : ¬ method = "DELETE".toList) :
    ¬ writes method path = true := by
  simp only [writes, Bool.or_eq_true, Bool.and_eq_true, decide_eq_true_eq, Bool.not_eq_true']
  grind

theorem serve_silent_iff (client : UInt32) (seq : UInt64) (request : Request) :
    (serve client seq request).Silent ↔ ¬ writes request.method request.path = true := by
  obtain ⟨method, path, body, keepAlive⟩ := request
  refine Conv.silent_bind_ret.trans ?_
  rw [route]
  dsimp only
  refine Conv.silent_ite (fun hget => ?get) fun _ => Conv.silent_ite (fun hset => ?set) fun hset =>
    Conv.silent_ite (fun hpost => ?post) fun hpost => Conv.silent_ite (fun hdelete => ?delete)
      fun hdelete => ?rest
  case get =>
    refine iff_of_true ⟨rfl, fun answer => ?_⟩ ?_
    · rcases answer with _ | _ | _ | (_ | _) | _ <;> trivial
    · refine writes_eq_false ?_ ?_ ?_ <;> rw [hget]
      · exact fun hboth => absurd hboth.1 (by decide)
      · decide
      · decide
  case set =>
    refine iff_of_false (Conv.not_silent_apply rfl) ?_
    obtain ⟨hput | hpost, hincr⟩ := hset
    · rw [writes, hput, Bool.eq_false_of_not_eq_true hincr]
      decide
    · simp [writes, hpost]
  case post => exact iff_of_false (Conv.not_silent_apply rfl) (by simp [writes, hpost])
  case delete => exact iff_of_false (Conv.not_silent_apply rfl) (by simp [writes, hdelete])
  case rest => exact iff_of_true trivial (writes_eq_false hset hpost hdelete)

end Http

namespace Txn

/-- In a transaction only `COMMIT` reaches the service. -/
def writes (conn : Conn) (parts : List (List Char)) : Bool :=
  if conn.inTxn then name parts = "COMMIT".toList
  else (name parts = "SET".toList && 3 ≤ parts.length)
    || (name parts = "DEL".toList && 2 ≤ parts.length)

theorem writes_eq_false {conn : Conn} {parts : List (List Char)}
    (hset : ¬ (name parts = "SET".toList ∧ 3 ≤ parts.length))
    (hdel : ¬ (name parts = "DEL".toList ∧ 2 ≤ parts.length))
    (hcommit : ¬ name parts = "COMMIT".toList) : ¬ writes conn parts = true := by
  rw [writes]
  grind

theorem write_silent_iff (client : UInt32) (conn : Conn) (entry : String × Option Bytes) :
    (write client conn entry).Silent ↔ conn.inTxn = true := by
  rw [write]
  split
  · exact iff_of_true trivial ‹_›
  · exact iff_of_false (Conv.not_silent_apply rfl) ‹_›

theorem serve_silent_iff (client : UInt32) (conn : Conn) (parts : List (List Char)) :
    (serve client conn parts).Silent ↔ ¬ writes conn parts = true := by
  have hother : ∀ text, name parts = text → text ≠ "SET".toList → text ≠ "DEL".toList →
      text ≠ "COMMIT".toList → ¬ writes conn parts = true := by
    rintro text rfl hset hdel hcommit
    exact writes_eq_false (fun hboth => hset hboth.1) (fun hboth => hdel hboth.1) hcommit
  rw [serve]
  dsimp only
  refine Conv.silent_ite (fun hbegin => ?begin) fun _ => Conv.silent_ite (fun hset => ?set) fun hset =>
    Conv.silent_ite (fun hdel => ?del) fun hdel => Conv.silent_ite (fun hget => ?get) fun _ =>
      Conv.silent_ite (fun hcommit => ?commit) fun hcommit => ?rest
  case begin => exact iff_of_true trivial (hother _ hbegin (by decide) (by decide) (by decide))
  case set =>
    rw [write_silent_iff, writes]
    cases conn.inTxn <;> simp [hset.1, hset.2]
  case del =>
    rw [write_silent_iff, writes]
    cases conn.inTxn <;> simp [hdel.1, hdel.2]
  case get =>
    refine iff_of_true ⟨rfl, fun answer => ?_⟩ (hother _ hget.1 (by decide) (by decide) (by decide))
    rcases answer with _ | _ | _ | (_ | _) | _ <;> trivial
  case commit =>
    refine Conv.silent_ite (fun hopen => ?_) fun hopen => ?_
    · exact iff_of_false (Conv.not_silent_apply rfl) (by simp [writes, hopen, hcommit])
    · refine iff_of_true trivial ?_
      rw [writes, if_neg hopen, hcommit]
      simp
  case rest =>
    have hquiet : ¬ writes conn parts = true := writes_eq_false hset hdel hcommit
    refine Conv.silent_ite (fun _ => ?_) fun _ => Conv.silent_ite (fun _ => ?_) fun _ => ?_
    all_goals exact iff_of_true trivial hquiet

end Txn

namespace StreamLog

theorem replay_silent (client : UInt32) (topic : List Char) (count : Nat) (offset : Int64)
    (seq : UInt64) : (replay client topic count offset seq).Silent := by
  induction count generalizing offset seq with
  | zero => trivial
  | succ count ih =>
      refine Conv.silent_applied rfl fun answer => (ih (offset + 1) (seq + 1)).bind fun result => ?_
      rcases answer with _ | _ | _ | (_ | _) | _ <;> trivial

theorem serve_silent_iff (client : UInt32) (seq : UInt64) (parts : List (List Char)) :
    (serve client seq parts).Silent ↔ ¬ isPub parts = true := by
  rw [serve]
  dsimp only
  refine Conv.silent_ite (fun hpub => ?pub) fun hpub => ?other
  case pub => exact iff_of_false (Conv.not_silent_apply rfl) (by simp [isPub, hpub.1, hpub.2])
  case other =>
    have hquiet : ¬ isPub parts = true := by
      rw [isPub, Bool.and_eq_true, decide_eq_true_eq, decide_eq_true_eq]
      exact hpub
    refine Conv.silent_ite (fun _ => ?_) fun _ => Conv.silent_ite (fun _ => ?_) fun _ =>
      Conv.silent_ite (fun _ => ?_) fun _ => ?_
    · refine iff_of_true (Conv.silent_applied rfl fun answer => ?_) hquiet
      exact (replay_silent client _ _ _ _).bind fun _ => trivial
    · exact iff_of_true (Conv.silent_applied rfl fun _ => trivial) hquiet
    · exact iff_of_true trivial hquiet
    · exact iff_of_true trivial hquiet

end StreamLog

end OneBarrier
