import OneBarrier.Proof.Server
import OneBarrier.Frontend.Resp

/-!
# What a restarted server finds

A RESP server that is stopped and started again has the store it had, for every key, as long as no
command carries more than the formats hold. A key that is too long for its length field is stored
and answered, and gone after the restart.
-/

namespace OneBarrier

open Wire Utf8 Durable

/-- **Restart.** In every state of every run whose ops are within the formats' limits, opening the
directory again gives the store of the running server. -/
theorem resp_restart {interval : UInt64} {events : List (WorldEvent resp)}
    (hatomic : Run.Guarded World.step (World.Delivers History.Atomic)
      (World.start interval : World resp) events) :
    let world := Run.run World.step (World.start interval : World resp) events
    ∀ engine ∈ world.history.engine, ∀ next : UInt64,
      (startEngine world.history.disk next).state = engine.state := by
  intro world engine hengine next
  exact (World.runs_atomic hatomic).restart_eq_live hengine next

/-- Every pass of the loop is one `SET`, answered and written. -/
def respSet (interval : UInt64) (name value : Bytes) : World resp :=
  Run.run World.step (World.start interval : World resp)
    [.accept 0 1, .request 0 [asBytes "SET", name, value], .send 0, .execute Faults.clean 0,
      .receive 0, .reply 0]

theorem resp_restart_after_set :
    (respSet 1 (asBytes "k") [65]).history.engine ≠ none
      ∧ ∀ engine ∈ (respSet 1 (asBytes "k") [65]).history.engine, ∀ next : UInt64,
        (startEngine (respSet 1 (asBytes "k") [65]).history.disk next).state = engine.state :=
  ⟨by decide +kernel, resp_restart (by decide +kernel)⟩

theorem respSet_longKey {size : Nat} (hsize : size = 2 ^ 16 - 1 + 1) :
    let world := respSet 8 (asBytes (longKey size)) []
    world.replies.map Served.output = [asBytes "+OK\r\n"]
      ∧ (world.history.engine.map fun engine => engine.state.map[longKey size]?) = some (some [])
      ∧ (startEngine world.history.disk 8).state.map[longKey size]? = none := by
  intro world
  have hlossy := fromUtf8Lossy_asBytes (longKey size)
  have hdisk : world.history.disk
      = { oplog := some (encodeRecord 2 (Op.encode
            ⟨1, 1, .set (fromUtf8Lossy (asBytes (longKey size))) []⟩)), snapshot := none } := rfl
  have hengine : world.history.engine.map (fun engine => engine.state)
      = some ⟨(∅ : BTreeMap String Bytes).insert (fromUtf8Lossy (asBytes (longKey size))) []⟩ := rfl
  rw [hlossy] at hdisk hengine
  refine ⟨rfl, ?_, ?_⟩
  · have hlookup := congrArg (Option.map fun state : KvStore => state.map[longKey size]?) hengine
    rw [Option.map_map, Option.map_some, Std.ExtTreeMap.getElem?_insert_self] at hlookup
    exact hlookup
  · rw [startEngine_eq_recover, hdisk, recover_longKey hsize]
    rfl

/-- A key of `2^16` bytes: the server has it and answers `+OK`, and a restart does not find it. -/
theorem long_key_lost_on_restart :
    let world := respSet 8 (asBytes (longKey (2 ^ 16))) []
    world.replies.map Served.output = [asBytes "+OK\r\n"]
      ∧ (world.history.engine.map fun engine => engine.state.map[longKey (2 ^ 16)]?)
        = some (some [])
      ∧ (startEngine world.history.disk 8).state.map[longKey (2 ^ 16)]? = none :=
  respSet_longKey (by decide)

end OneBarrier
