import OneBarrier.Proof.ExactlyOnce
import OneBarrier.Proof.Replica
import OneBarrier.Proof.Restart
import OneBarrier.Proof.OutputCommit
import OneBarrier.Proof.Transaction
import OneBarrier.Proof.Linearizable
import OneBarrier.Proof.Framing
import OneBarrier.Proof.Partial
import OneBarrier.Lib.Decimal
import OneBarrier.Interpose
import OneBarrier.Proof.Vclock
import OneBarrier.Proof.Segments
import OneBarrier.Lib.Interleave
import OneBarrier.Replay
import OneBarrier.Proof.Replay
import OneBarrier.Lib.Resp2
import OneBarrier.Proof.RespReplies
import OneBarrier.Spec
import OneBarrier.Stages
import OneBarrier.Proof.Refinement
import OneBarrier.Proof.Calls
import OneBarrier.Proof.Clients
import OneBarrier.Proof.Identity
import OneBarrier.Proof.Execution
import OneBarrier.Proof.Process
import OneBarrier.Proof.Isolation
import OneBarrier.Proof.Crashes
import OneBarrier.OnePipe
import OneBarrier.Proof.OnePipe
import OneBarrier.Linearizability
import OneBarrier.Proof.Linearizability
import OneBarrier.Oracle
import OneBarrier.Proof.Oracle
import OneBarrier.Rest
import OneBarrier.Proof.Rest
import OneBarrier.Proof.RecordReplay
import OneBarrier.Capture
import OneBarrier.Proof.Capture
import OneBarrier.Detsched
import OneBarrier.Proof.Detsched
import OneBarrier.Proof.DetschedCreate
import OneBarrier.Proof.Snapshot
import OneBarrier.Proof.Access
import OneBarrier.Proof.Commands
import OneBarrier.Proof.Counters
import OneBarrier.Proof.RespCommands
import OneBarrier.Proof.Retry
import OneBarrier.Proof.Interval
import OneBarrier.Proof.Create
import OneBarrier.Lib.Blocks
import OneBarrier.Proof.Cut
import OneBarrier.Proof.Handover
import OneBarrier.Proof.Rngdet
import OneBarrier.Proof.Slots
import OneBarrier.AppJepsen
import OneBarrier.Proof.AppJepsen
import OneBarrier.Proof.Lengths
import OneBarrier.Lib.Locality
import OneBarrier.Proof.Locality
import OneBarrier.Proof.OnePipeProgress
import OneBarrier.Proof.Accounts
import OneBarrier.Bench
import OneBarrier.Proof.Workload
import OneBarrier.Proof.Sweep
import OneBarrier.Failover
import OneBarrier.Proof.Failover
import OneBarrier.Replicated
import OneBarrier.Proof.Replicated
import OneBarrier.Proof.Offsets
import OneBarrier.Proof.Serving
import OneBarrier.Proof.Subscription
import OneBarrier.Proof.Publishing
import OneBarrier.Proof.Consumer
import OneBarrier.LinCheck
import OneBarrier.Proof.LinCheck
import OneBarrier.Jepsen
import OneBarrier.Proof.Jepsen
import OneBarrier.Cache
import OneBarrier.Proof.CacheCommands
import OneBarrier.Proof.Cache
