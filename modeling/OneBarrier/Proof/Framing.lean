import OneBarrier.App

/-!
# Timeouts between requests

A read that times out before the first byte of a request is repeated and nothing is lost. As long as
timeouts fall nowhere else, a connection does what it does without them. A timeout inside a request
drops the part that has been read, and the rest is taken for a request of its own.
-/

namespace OneBarrier

open Wire Input Utf8

/-- What the loops of the front-ends have in common: each pass looks at its own request only, takes
something off the stream, ends with it, and is repeated when the first read times out. -/
structure Frontend.Framed (frontend : Frontend) : Prop where
  isLocal : Local frontend.read
  advances : Advances frontend.read
  ends : frontend.read [] = (.close, [])
  retries : ∀ rest, frontend.read (none :: rest) = (.again, rest)

namespace Frontend

variable {frontend : Frontend} {client : UInt32}

/-- One pass of the loop, with what comes after it. -/
def pass (frontend : Frontend) (client : UInt32) (later : frontend.Conn → Source → Conv Bytes)
    (conn : frontend.Conn) (source : Source) : Conv Bytes :=
  match frontend.read source with
  | (.close, _) => .ret []
  | (.again, rest) => later conn rest
  | (.request request, rest) => do
      let turn ← frontend.serve client conn request
      if turn.close then pure turn.output
      else
        let output ← later turn.conn rest
        pure (turn.output ++ output)

theorem pass_congr {later other : frontend.Conn → Source → Conv Bytes} {source source' : Source}
    (hread : (frontend.read source).1 = (frontend.read source').1)
    (hlater : (frontend.read source).1 ≠ .close → ∀ conn,
      later conn (frontend.read source).2 = other conn (frontend.read source').2)
    (conn : frontend.Conn) :
    frontend.pass client later conn source = frontend.pass client other conn source' := by
  rw [pass, pass]
  generalize frontend.read source = first at hread hlater
  generalize frontend.read source' = second at hread hlater
  obtain ⟨received, rest⟩ := first
  obtain ⟨received', rest'⟩ := second
  obtain rfl : received = received' := hread
  cases received with
  | close => rfl
  | again => exact hlater (by simp) conn
  | request request =>
      have hsame : ∀ conn, later conn rest = other conn rest' := hlater (by simp)
      simp only [hsame]

theorem converse_eq_converse (hframed : frontend.Framed) {fuel fuel' : Nat} {source : Source}
    (hfuel : source.length < fuel) (hfuel' : source.length < fuel') (conn : frontend.Conn) :
    frontend.converse client fuel conn source = frontend.converse client fuel' conn source := by
  induction fuel generalizing fuel' source conn with
  | zero => exact absurd hfuel (Nat.not_lt_zero _)
  | succ fuel ih =>
      cases fuel' with
      | zero => exact absurd hfuel' (Nat.not_lt_zero _)
      | succ fuel' =>
          refine pass_congr rfl (fun hopen => ?_) conn
          have hsource : source ≠ [] := by
            rintro rfl
            exact hopen (congrArg Prod.fst hframed.ends)
          have hshorter := hframed.advances source hsource
          exact fun conn => ih (by omega) (by omega) conn

theorem session_eq_pass (hframed : frontend.Framed) (conn : frontend.Conn) (source : Source) :
    frontend.session client conn source
      = frontend.pass client (frontend.session client) conn source := by
  rw [session]
  refine pass_congr rfl (fun hopen => ?_) conn
  have hsource : source ≠ [] := by
    rintro rfl
    exact hopen (congrArg Prod.fst hframed.ends)
  have hshorter := hframed.advances source hsource
  exact fun conn => converse_eq_converse hframed hshorter (Nat.lt_succ_self _) conn

/-- The bytes are one pass's worth: with more to come, the read takes them and leaves the rest. -/
def Whole (frontend : Frontend) (input : Bytes) : Prop :=
  (frontend.read (arrive input ++ [none])).2 = [none]

instance (frontend : Frontend) (input : Bytes) : Decidable (frontend.Whole input) :=
  inferInstanceAs (Decidable (_ = _))

/-- The pass is the connection's last. -/
def Last (frontend : Frontend) : Received frontend.Request → Prop
  | .close => True
  | .again => False
  | .request request => ∀ client conn, ∃ turn,
      frontend.serve client conn request = .ret turn ∧ turn.close = true

/-- Timeouts fall before the first byte of a request, or once the connection has been ended, or not
at all. -/
inductive Quiet (frontend : Frontend) : Source → Prop
  | rest (input : Bytes) : Quiet frontend (arrive input)
  | timeout {source : Source} (hquiet : Quiet frontend source) : Quiet frontend (none :: source)
  | request {input : Bytes} {source : Source} (hwhole : frontend.Whole input)
      (hquiet : Quiet frontend source) : Quiet frontend (arrive input ++ source)
  | ended {input : Bytes} {source : Source} (hwhole : frontend.Whole input)
      (hlast : frontend.Last (frontend.read (arrive input ++ [none])).1) :
      Quiet frontend (arrive input ++ source)

theorem Framed.read_whole (hframed : frontend.Framed) {input : Bytes}
    (hwhole : frontend.Whole input) : ∃ received, ∀ source,
      frontend.read (arrive input ++ source) = (received, source) := by
  obtain ⟨consumed, hconsumed, hlocal⟩ := hframed.isLocal.independent (arrive input ++ [none])
  rw [hwhole] at hconsumed hlocal
  obtain rfl : arrive input = consumed := List.append_cancel_right hconsumed
  exact ⟨_, hlocal (by simp)⟩

theorem sent_append (first second : Source) : (first ++ second).sent = first.sent ++ second.sent :=
  List.filterMap_append

theorem sent_arrive (input : Bytes) : (arrive input).sent = input := by
  simp [arrive, Source.sent]

/-- Nothing comes after a last pass. -/
theorem pass_of_last {later other : frontend.Conn → Source → Conv Bytes} {source source' : Source}
    (hread : (frontend.read source).1 = (frontend.read source').1)
    (hlast : frontend.Last (frontend.read source).1) (conn : frontend.Conn) :
    frontend.pass client later conn source = frontend.pass client other conn source' := by
  rw [pass, pass]
  generalize frontend.read source = first at hread hlast
  generalize frontend.read source' = second at hread
  obtain ⟨received, rest⟩ := first
  obtain ⟨received', rest'⟩ := second
  obtain rfl : received = received' := hread
  cases received with
  | close => rfl
  | again => exact hlast.elim
  | request request =>
      obtain ⟨turn, hturn, hclose⟩ := hlast client conn
      simp only [hturn]
      change (if turn.close = true then _ else _) = (if turn.close = true then _ else _)
      rw [if_pos hclose, if_pos hclose]

/-- With every timeout between two requests, the connection does what it does without them. -/
theorem session_eq_of_quiet (hframed : frontend.Framed) {source : Source}
    (hquiet : frontend.Quiet source) (conn : frontend.Conn) :
    frontend.session client conn source
      = frontend.session client conn (arrive source.sent) := by
  induction hquiet generalizing conn with
  | rest input => rw [sent_arrive]
  | timeout hquiet ih =>
      rw [session_eq_pass hframed, pass, hframed.retries]
      exact ih conn
  | request hwhole hquiet ih =>
      obtain ⟨received, hread⟩ := hframed.read_whole hwhole
      rw [sent_append, sent_arrive, arrive_append, session_eq_pass hframed,
        session_eq_pass hframed conn (_ ++ _)]
      refine pass_congr (by rw [hread, hread]) (fun _ conn => ?_) conn
      rw [hread, hread]
      exact ih conn
  | ended hwhole hlast =>
      obtain ⟨received, hread⟩ := hframed.read_whole hwhole
      rw [sent_append, sent_arrive, arrive_append, session_eq_pass hframed,
        session_eq_pass hframed conn (_ ++ _)]
      refine pass_of_last (by rw [hread, hread]) ?_ conn
      rw [hread] at hlast ⊢
      exact hlast

end Frontend

/-! ### The four loops -/

namespace Resp

theorem readLine_frames : Local readLine ∧ Advances readLine := by
  refine frames_fallible_bind frames_readUntilNewline fun raw => ?_
  split
  · exact Local.fallible_pure _
  · exact Local.fallible_pure _

theorem parseInt_local (text : Bytes) : Local (parseInt text) := by
  rw [parseInt]
  split
  · exact Local.fallible_pure _
  · exact Local.throw _

theorem readBulk_local : Local readBulk := by
  refine readLine_frames.1.fallible_bind fun line => ?_
  cases line with
  | none => exact Local.throw _
  | some header =>
      dsimp only
      split
      · exact Local.throw _
      refine (parseInt_local _).fallible_bind fun length => ?_
      split
      · exact Local.fallible_pure _
      split
      · exact Local.throw _
      · exact (Local.readExact _).fallible_bind fun buffer => Local.fallible_pure _

theorem readBulks_local (count : Nat) : Local (readBulks count) := by
  induction count with
  | zero => exact Local.fallible_pure _
  | succ count ih =>
      exact readBulk_local.fallible_bind fun arg => ih.fallible_bind fun args =>
        Local.fallible_pure _

theorem readCommand_frames : Local readCommand ∧ Advances readCommand := by
  refine frames_fallible_bind readLine_frames fun line => ?_
  cases line with
  | none => exact Local.fallible_pure _
  | some line =>
      dsimp only
      split
      · exact Local.fallible_pure _
      split
      · refine (parseInt_local _).fallible_bind fun count => ?_
        split
        · exact Local.fallible_pure _
        split
        · exact Local.throw _
        · exact (readBulks_local _).fallible_bind fun args => Local.fallible_pure _
      · exact Local.fallible_pure _

end Resp

theorem resp_framed : resp.Framed := by
  obtain ⟨hlocal, hadvances⟩ := frames_bind Resp.readCommand_frames fun command =>
    Local.pure (Resp.received command)
  exact ⟨hlocal, hadvances, rfl, fun _ => rfl⟩

namespace Memcache

theorem readLine_frames : Local readLine ∧ Advances readLine := by
  refine frames_fallible_bind frames_readUntilNewline fun raw => ?_
  split
  · exact Local.fallible_pure _
  · exact Local.fallible_pure _

theorem readData_local (length : Nat) : Local (readData length) := by
  rw [readData]
  dsimp only
  split
  · exact Local.throw _
  · exact (Local.readExact _).fallible_bind fun data => Local.fallible_pure _

end Memcache

theorem memcache_framed : memcache.Framed := by
  obtain ⟨hlocal, hadvances⟩ : Local Memcache.read ∧ Advances Memcache.read := by
    refine frames_bind Memcache.readLine_frames fun outcome => ?_
    rcases outcome with (_ | _ | _ | _) | (_ | line)
    · exact Local.pure _
    · exact Local.pure _
    · exact Local.pure _
    · exact Local.pure _
    · exact Local.pure _
    · dsimp only
      split
      · exact Local.pure _
      split
      · refine (Memcache.readData_local _).bind fun data => ?_
        cases data <;> exact Local.pure _
      · exact Local.pure _
  exact ⟨hlocal, hadvances, rfl, fun _ => rfl⟩

theorem txn_framed : txn.Framed := by
  obtain ⟨hlocal, hadvances⟩ : Local Txn.read ∧ Advances Txn.read := by
    refine frames_bind frames_readUntilNewline fun outcome => ?_
    rcases outcome with (_ | _ | _ | _) | raw
    · exact Local.pure _
    · exact Local.pure _
    · exact Local.pure _
    · exact Local.pure _
    · dsimp only
      split
      · exact Local.pure _
      split <;> exact Local.pure _
  exact ⟨hlocal, hadvances, rfl, fun _ => rfl⟩

theorem streamlog_framed : streamlog.Framed := by
  obtain ⟨hlocal, hadvances⟩ : Local StreamLog.read ∧ Advances StreamLog.read := by
    refine frames_bind frames_readUntilNewline fun outcome => ?_
    rcases outcome with (_ | _ | _ | _) | raw
    · exact Local.pure _
    · exact Local.pure _
    · exact Local.pure _
    · exact Local.pure _
    · dsimp only
      split
      · exact Local.pure _
      split <;> exact Local.pure _
  exact ⟨hlocal, hadvances, rfl, fun _ => rfl⟩

/-- **Timeouts between requests are transparent**, to the ops issued and to the bytes written, whatever
the service answers. -/
theorem timeouts_transparent (app : App) (happ : app ≠ .http) {source : Source}
    (hquiet : app.frontend.Quiet source) (client : UInt32) (conn : app.frontend.Conn) :
    app.frontend.session client conn source
      = app.frontend.session client conn (arrive source.sent) := by
  cases app with
  | resp => exact Frontend.session_eq_of_quiet resp_framed hquiet conn
  | memcache => exact Frontend.session_eq_of_quiet memcache_framed hquiet conn
  | http => exact absurd rfl happ
  | txn => exact Frontend.session_eq_of_quiet txn_framed hquiet conn
  | streamlog => exact Frontend.session_eq_of_quiet streamlog_framed hquiet conn

/-- Two commands, with a timeout before, between and behind them. -/
def pausedCommands : Source :=
  none :: (arrive (asBytes "*2\r\n$4\r\nINCR\r\n$1\r\nn\r\n")
    ++ none :: (arrive (asBytes "GET n\r\n") ++ none :: arrive []))

theorem quiet_pausedCommands : App.resp.frontend.Quiet pausedCommands :=
  .timeout (.request (by decide +kernel) (.timeout (.request (by decide +kernel)
    (.timeout (.rest [])))))

theorem timeouts_transparent_paused :
    pausedCommands ≠ arrive pausedCommands.sent
      ∧ App.resp.frontend.session 1 (0 : UInt64) pausedCommands
        = App.resp.frontend.session 1 (0 : UInt64) (arrive pausedCommands.sent) :=
  ⟨by decide +kernel, timeouts_transparent .resp (by decide) quiet_pausedCommands 1 _⟩

/-- A `SET` whose value arrives after a pause. -/
def pausedSet : Source :=
  arrive (asBytes "*3\r\n$3\r\nSET\r\n$1\r\nk\r\n$7\r\n") ++ [none]
    ++ arrive (asBytes "DEL x\r\n\r\n")

/-- The command is dropped and its value is executed in its place. -/
theorem timeout_executes_payload :
    let answer := fun (_ : Unit) (_ : Op) => ((), some Output.ok)
    (resp.session 1 (0 : UInt64) pausedSet).against answer (fun _ => none) ()
        = ([⟨1, 1, .del "x"⟩], asBytes ":0\r\n")
      ∧ (resp.session 1 (0 : UInt64) (arrive pausedSet.sent)).against answer (fun _ => none) ()
        = ([⟨1, 1, .set "k" (asBytes "DEL x\r\n")⟩], asBytes "+OK\r\n") :=
  ⟨by decide +kernel, by decide +kernel⟩

end OneBarrier
