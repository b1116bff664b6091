import OneBarrier.Oracle

/-!
# A crash in the cluster

`run_cluster_with_crash`: the victim feeds what the fabric hands it, batch by batch, until it has applied
enough, and stops with its directory as it is. A survivor goes on to the end. The victim then recovers
its directory and adopts the survivor's exported state. The fabric is whatever it delivers.
-/

namespace OneBarrier.Oracle

/-- The victim's loop over the batches the fabric hands it; `none` if it never gets to its crash. -/
def victimRun (crashAfter : Nat) (engine : Engine KvStore) (disk : Disk) (applied : Nat) :
    List (List Record) → Option (Engine KvStore × Disk)
  | [] => none
  | batch :: batches =>
      let fed := feed engine disk applied batch
      if crashAfter ≤ fed.2.2 then some (fed.1, fed.2.1)
      else victimRun crashAfter fed.1 fed.2.1 fed.2.2 batches

structure CrashReport where
  expected : List (String × Int64)
  survivorState : List (String × Int64)
  victimPrefix : List (String × Int64)
  victimCaughtUp : List (String × Int64)
  survivorCorrect : Bool
  victimPrefixConsistent : Bool
  recoveredOk : Bool
  deriving DecidableEq

/-- The report on a survivor and on the victim as the crash left it. -/
def crashReport (clients : Nat) (ops keys interval : UInt64) (survivor : Engine KvStore)
    (victim : Engine KvStore × Disk) : CrashReport :=
  let expected := expectedState clients ops keys
  let recovered : Engine KvStore := Engine.recover victim.2 interval
  let caughtUp := (recovered.importState .none victim.2 survivor.exportState).2.1
  let expectedMap : BTreeMap String Int64 := Std.ExtTreeMap.ofList expected compare
  { expected
    survivorState := survivor.state.entries
    victimPrefix := victim.1.state.entries
    victimCaughtUp := caughtUp.state.entries
    survivorCorrect := survivor.state.entries = expected
    victimPrefixConsistent := victim.1.state.entries.all fun entry =>
      expectedMap[entry.1]?.any fun total => entry.2 ≤ total
    recoveredOk := caughtUp.state.entries = survivor.state.entries
      ∧ survivor.state.entries = expected }

end OneBarrier.Oracle
