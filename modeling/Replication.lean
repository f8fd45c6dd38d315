import Replication.Library.Run
import Replication.Library.Join
import Replication.Library.Ledger
import Replication.Storage.Store
import Replication.Log.Represents
import Replication.Clock.HLC
import Replication.Clock.Causality
import Replication.Swim.Gossip
import Replication.Paxos.Agreement
import Replication.TwoPC.Serializability
import Replication.Leaderless.Convergence
import Replication.Leaderless.Freshness
import Replication.Leaderless.Handoff
import Replication.Leaderless.Digest
import Replication.Leaderless.Genuine
import Replication.Leaderless.Honesty
import Replication.MultiLeader.Merging
import Replication.MultiLeader.Reconcile
import Replication.MultiLeader.Redelivery
import Replication.Raft.Read
import Replication.Raft.Role
import Replication.Simulation.LocalWrites
import Replication.Simulation.Quorums
import Replication.Leaderless.Eventual
import Replication.Simulation.Restart
import Replication.SingleLeader.Agreement
import Replication.SingleLeader.Batch
import Replication.SingleLeader.Sync
import Replication.AntiEntropy.Diff
import Replication.Checker.Exactness
import Replication.Conflict.Sequence
import Replication.Client.Alarms
import Replication.HashRing.Members
import Replication.Mvcc.Snapshot
import Replication.Mvcc.Compaction
import Replication.Paxos.MultiPaxos
import Replication.TwoPC.Discipline
import Replication.Swim.Timeout
import Replication.Durability.Wal
import Replication.SimClock.VirtualClock
import Replication.Simulation.HistoryRows
import Replication.Consistency.Session
import Replication.Consistency.Staleness
import Replication.Log.AppendAfter
import Replication.Log.Compaction
import Replication.Storage.ClockLaws
import Replication.Storage.Versions
import Replication.Quorum.Calculator
import Replication.Transport.Delivery
