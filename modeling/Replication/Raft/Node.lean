import Replication.Node.Base
import Replication.Storage.Store
import Replication.Log.Represents

/-!
# Raft · Node: the handlers of one node

`internal/node/raft.go`. A cluster of `N` nodes is numbered by `Fin N`, and the peers of a node
are the other numbers (`createRaftCluster` adds every other id as a peer, and Raft membership
never changes). Each handler is a function from the node to the node and the messages it sends.

Left out: `lastHeard`, `timeout` and `rng`, which only decide *when* an election tick fires (the
tick takes the outcome of the timeout test as an argument), metrics, and published events. The
hybrid-clock stamp of a proposal is an argument.

`discarded` and `included` are history variables: the entries a node's log has compacted away,
and those a snapshot stands for. No handler reads them except to hand them on, so they record
what "the entries `1..s` of that leader's log" were after compaction.
-/

namespace Replication.Raft

open Storage Log Node

/-- The internal role. Source: `raft.go` `raftRole`. -/
inductive RaftRole where
  | follower
  | candidate
  | leader
  deriving DecidableEq, Repr

/-- A log entry of a cluster of `N` nodes. -/
abbrev Entry (N : ℕ) (K V : Type) := LogEntry (Fin N) K V

/-- The kinds of Raft messages with the fields each one uses. Source: `message.go` `Message`. -/
inductive Body (N : ℕ) (K V : Type) where
  | voteRequest (lastLogIndex lastLogTerm : ℕ)
  | voteResponse (voteGranted : Bool)
  | appendEntries (prevLogIndex prevLogTerm : ℕ) (entries : List (Entry N K V))
      (leaderCommit : ℕ)
  /-- `MsgAppendAck`; on success `conflictIndex` is the match index. -/
  | appendAck (success : Bool) (conflictIndex : ℕ)
  /-- `MsgInstallSnap`; the boundary travels as previous index and term. -/
  | installSnap (prevLogIndex prevLogTerm : ℕ) (snapshot : K → Option (KVEntry (Fin N) K V))
      (included : List (Entry N K V))

/-- A Raft message. Source: `message.go` `Message`. -/
structure Message (N : ℕ) (K V : Type) where
  senderID : Fin N
  targetID : Fin N
  term : ℕ
  body : Body N K V

/-- A Raft node. Source: `raft.go` `RaftNode` and the fields of `BaseNode` it uses. -/
structure RaftNode (N : ℕ) (K V : Type) where
  state : NodeState
  /-- The role reported to the outside. -/
  publishedRole : NodeRole
  currentTerm : ℕ
  /-- The vote of the current term; `none` is the empty id. -/
  votedFor : Option (Fin N)
  role : RaftRole
  /-- The leader the node follows; `none` is the empty id. -/
  raftLeader : Option (Fin N)
  /-- The votes counted as a candidate. -/
  votes : ℕ
  /-- Next index to send to each peer (`0` where the map has no entry). -/
  nextIndex : Fin N → ℕ
  /-- Index acknowledged by each peer (`0` where the map has no entry). -/
  matchIndex : Fin N → ℕ
  /-- The last index applied to the store. -/
  applied : ℕ
  log : ReplicationLog (Fin N) K V
  store : Store (Fin N) K V
  /-- Goroutines started by `becomeLeaderLocked` that have not run yet. -/
  spawned : ℕ
  /-- History variable: the entries the log has compacted away. -/
  discarded : List (Entry N K V)

variable {N : ℕ} {K V : Type}

/-- The peers of a node: all the others. Source: `orchestrator.go` `createRaftCluster`. -/
def peers (self : Fin N) : List (Fin N) := (List.finRange N).filter (· ≠ self)

/-- Source: `raft.go` `majority`. -/
def majority (self : Fin N) : ℕ := ((peers self).length + 1) / 2 + 1

namespace RaftNode

/-- A new node. Source: `raft.go` `NewRaftNode`. -/
def new : RaftNode N K V where
  state := .online
  publishedRole := .follower
  currentTerm := 0
  votedFor := none
  role := .follower
  raftLeader := none
  votes := 0
  nextIndex _ := 0
  matchIndex _ := 0
  applied := 0
  log := .new
  store := .new
  spawned := 0
  discarded := []

/-- All entries of the node's log from index `1` on, compacted ones included. -/
def fullLog (n : RaftNode N K V) : List (Entry N K V) := n.discarded ++ n.log.entries

/-! ### Elections -/

/-- Source: `raft.go` `stepDownLocked`. -/
def stepDownLocked (n : RaftNode N K V) (newTerm : ℕ) : RaftNode N K V :=
  { n with currentTerm := newTerm, role := .follower, votedFor := none, raftLeader := none }

/-- The election tick; `expired` says that the election timeout has passed. Source: `raft.go`
`maybeElect`. -/
def maybeElect (self : Fin N) (expired : Bool) (n : RaftNode N K V) :
    RaftNode N K V × List (Message N K V) :=
  if n.role = .leader ∨ expired = false then (n, [])
  else
    ({ n with
        currentTerm := n.currentTerm + 1, role := .candidate, votedFor := some self, votes := 1,
        raftLeader := none },
      (peers self).map fun p =>
        { senderID := self, targetID := p, term := n.currentTerm + 1,
          body := .voteRequest n.log.lastIndexTerm.1 n.log.lastIndexTerm.2 })

/-- Whether the candidate's log is at least as up to date as the node's. Source: `raft.go`
`handleVoteRequest`, `upToDate`. -/
def upToDate (n : RaftNode N K V) (lastLogIndex lastLogTerm : ℕ) : Bool :=
  n.log.lastIndexTerm.2 < lastLogTerm ∨
    (lastLogTerm = n.log.lastIndexTerm.2 ∧ n.log.lastIndexTerm.1 ≤ lastLogIndex)

/-- Source: `raft.go` `handleVoteRequest`. -/
def handleVoteRequest (self : Fin N) (n : RaftNode N K V) (sender : Fin N)
    (term lastLogIndex lastLogTerm : ℕ) : RaftNode N K V × List (Message N K V) :=
  let n₁ := if n.currentTerm < term then n.stepDownLocked term else n
  let grant := term = n₁.currentTerm ∧ (n₁.votedFor = none ∨ n₁.votedFor = some sender) ∧
    n₁.upToDate lastLogIndex lastLogTerm = true
  (if grant then { n₁ with votedFor := some sender } else n₁,
    [{ senderID := self, targetID := sender, term := n₁.currentTerm,
       body := .voteResponse grant }])

/-- Source: `raft.go` `becomeLeaderLocked`. -/
def becomeLeaderLocked (self : Fin N) (n : RaftNode N K V) : RaftNode N K V :=
  { n with
    role := .leader
    raftLeader := some self
    nextIndex := fun p => if p ∈ peers self then n.log.lastIndex + 1 else n.nextIndex p
    matchIndex := fun p => if p ∈ peers self then 0 else n.matchIndex p
    publishedRole := .leader
    spawned := n.spawned + 1 }

/-- Source: `raft.go` `handleVoteResponse`. -/
def handleVoteResponse (self : Fin N) (n : RaftNode N K V) (term : ℕ) (voteGranted : Bool) :
    RaftNode N K V :=
  if n.currentTerm < term then n.stepDownLocked term
  else if n.role ≠ .candidate ∨ term ≠ n.currentTerm then n
  else if voteGranted then
    if majority self ≤ n.votes + 1 then
      becomeLeaderLocked self { n with votes := n.votes + 1 }
    else { n with votes := n.votes + 1 }
  else n

/-! ### Replication -/

/-- Source: `raft.go` `sendSnapshot`. -/
def sendSnapshot (self peer : Fin N) (term : ℕ) (n : RaftNode N K V) : Message N K V where
  senderID := self
  targetID := peer
  term := term
  body := .installSnap n.log.snapshotBoundary.1 n.log.snapshotBoundary.2 n.store.snapshotBytes
    n.discarded

/-- Source: `raft.go` `sendAppend`. -/
def sendAppend (self : Fin N) (n : RaftNode N K V) (peer : Fin N) : List (Message N K V) :=
  if n.role ≠ .leader then []
  else
    let ni := if n.nextIndex peer = 0 then 1 else n.nextIndex peer
    let prevIndex := ni - 1
    if prevIndex < n.log.snapshotBoundary.1 then [sendSnapshot self peer n.currentTerm n]
    else
      [{ senderID := self, targetID := peer, term := n.currentTerm,
         body := .appendEntries prevIndex (n.log.termAt prevIndex) (n.log.getFrom ni)
           n.log.commitIndex }]

/-- Source: `raft.go` `maybeHeartbeat`. -/
def maybeHeartbeat (self : Fin N) (n : RaftNode N K V) : List (Message N K V) :=
  if n.role = .leader then (peers self).flatMap (sendAppend self n) else []

/-- The loop of `applyCommitted`, for a number of rounds. -/
def applyRounds [DecidableEq K] : ℕ → RaftNode N K V → RaftNode N K V
  | 0, n => n
  | k + 1, n =>
    match n.log.get (n.applied + 1) with
    | none => n
    | some e =>
      applyRounds k { n with store := n.store.set e.toKV, applied := n.applied + 1 }

/-- Source: `raft.go` `applyCommitted`. -/
def applyCommitted [DecidableEq K] (n : RaftNode N K V) (upto : ℕ) : RaftNode N K V :=
  applyRounds (upto - n.applied) n

/-- Commit up to an index and apply: `SetCommitIndex` followed by `applyCommitted`. -/
def commitTo [DecidableEq K] (n : RaftNode N K V) (idx : ℕ) : RaftNode N K V :=
  applyCommitted { n with log := n.log.setCommitIndex idx } idx

/-- How many nodes, the leader included, are known to hold an index. -/
def replicaCount (self : Fin N) (n : RaftNode N K V) (idx : ℕ) : ℕ :=
  1 + (peers self).countP fun p => idx ≤ n.matchIndex p

/-- The loop of `advanceCommitLocked`, from the index `commitIndex + k` downwards. -/
def advanceFrom [DecidableEq K] (self : Fin N) (n : RaftNode N K V) : ℕ → RaftNode N K V
  | 0 => n
  | k + 1 =>
    let idx := n.log.commitIndex + (k + 1)
    if n.log.termAt idx ≠ n.currentTerm then advanceFrom self n k
    else if majority self ≤ n.replicaCount self idx then n.commitTo idx
    else advanceFrom self n k

/-- Source: `raft.go` `advanceCommitLocked`. -/
def advanceCommitLocked [DecidableEq K] (self : Fin N) (n : RaftNode N K V) : RaftNode N K V :=
  advanceFrom self n (n.log.lastIndex - n.log.commitIndex)

/-- Follow the sender of an accepted AppendEntries or InstallSnapshot: a larger term is taken
over, the role becomes follower, and a change of leader publishes the role. -/
def follow (n : RaftNode N K V) (sender : Fin N) (term : ℕ) : RaftNode N K V :=
  let n₁ := if n.currentTerm < term then n.stepDownLocked term else n
  if n₁.raftLeader ≠ some sender then
    { n₁ with role := .follower, raftLeader := some sender, publishedRole := .follower }
  else { n₁ with role := .follower }

/-- The acknowledgement of an AppendEntries or InstallSnapshot. -/
def ackMessage (self target : Fin N) (term : ℕ) (success : Bool) (conflictIndex : ℕ) :
    Message N K V where
  senderID := self
  targetID := target
  term := term
  body := .appendAck success conflictIndex

/-- Source: `raft.go` `handleAppendEntries`. -/
def handleAppendEntries [DecidableEq K] (self : Fin N) (n : RaftNode N K V) (sender : Fin N)
    (term prevLogIndex prevLogTerm : ℕ) (entries : List (Entry N K V)) (leaderCommit : ℕ) :
    RaftNode N K V × List (Message N K V) :=
  if term < n.currentTerm then (n, [ackMessage self sender n.currentTerm false 0])
  else
    let n₁ := n.follow sender term
    if n₁.log.matches prevLogIndex prevLogTerm = false then
      (n₁, [ackMessage self sender n₁.currentTerm false (n₁.log.lastIndex + 1)])
    else
      let appended := n₁.log.appendAfter prevLogIndex entries
      let n₂ := { n₁ with log := appended.1 }
      let n₃ :=
        if n₂.log.commitIndex < leaderCommit then n₂.commitTo (min leaderCommit appended.2)
        else n₂
      (n₃, [ackMessage self sender n₁.currentTerm true appended.2])

/-- Source: `raft.go` `handleAppendAck`. -/
def handleAppendAck [DecidableEq K] (self : Fin N) (n : RaftNode N K V) (sender : Fin N)
    (term : ℕ) (success : Bool) (conflictIndex : ℕ) : RaftNode N K V :=
  if n.currentTerm < term then { n.stepDownLocked term with publishedRole := .follower }
  else if n.role ≠ .leader then n
  else if success then
    advanceCommitLocked self
      { n with
        matchIndex := Function.update n.matchIndex sender conflictIndex
        nextIndex := Function.update n.nextIndex sender (conflictIndex + 1) }
  else if 1 < n.nextIndex sender then
    { n with nextIndex := Function.update n.nextIndex sender (n.nextIndex sender - 1) }
  else n

/-! ### Compaction and snapshots -/

/-- The number of applied entries beyond the boundary that triggers a compaction. -/
def threshold : ℕ := 30

/-- Source: `raft.go` `maybeCompact`. -/
def maybeCompact (n : RaftNode N K V) : RaftNode N K V :=
  let snapIdx := n.log.snapshotBoundary.1
  if n.applied ≤ snapIdx ∨ n.applied - snapIdx ≤ threshold then n
  else if n.log.termAt n.applied = 0 then n
  else
    let log' := n.log.compact n.applied (n.log.termAt n.applied)
    { n with
      log := log'
      discarded := n.discarded ++ n.log.entries.take (log'.snapshotIndex - n.log.snapshotIndex) }

/-- Source: `raft.go` `handleInstallSnap`. -/
def handleInstallSnap (self : Fin N) (n : RaftNode N K V) (sender : Fin N)
    (term snapIdx snapTerm : ℕ) (snapshot : K → Option (KVEntry (Fin N) K V))
    (included : List (Entry N K V)) : RaftNode N K V × List (Message N K V) :=
  if term < n.currentTerm then (n, [ackMessage self sender n.currentTerm false 0])
  else
    let n₁ := n.follow sender term
    let n₂ :=
      if n₁.log.snapshotBoundary.1 < snapIdx then
        { n₁ with
          store := n₁.store.restoreSnapshot snapshot
          log := n₁.log.installSnapshot snapIdx snapTerm
          applied := if n₁.applied < snapIdx then snapIdx else n₁.applied
          discarded := included }
      else n₁
    (n₂, [ackMessage self sender n₂.currentTerm true n₂.log.lastIndex])

/-! ### Clients -/

/-- The errors of client calls. Source: `raft.go` `Write`, `Delete`, `Read`. -/
inductive RaftError (N : ℕ) (K : Type) where
  /-- "node %s is paused/offline". -/
  | paused
  /-- "no leader elected yet; retry". -/
  | noLeader
  /-- "not leader: writes (reads) must go to current leader %s". -/
  | notLeader (leader : Fin N)
  /-- "key %q not found". -/
  | notFound (key : K)
  deriving DecidableEq

/-- The refusal of a node that does not lead. -/
def redirect (n : RaftNode N K V) : RaftError N K :=
  match n.raftLeader with
  | none => .noLeader
  | some leader => .notLeader leader

/-- The log entry a proposal appends; `Append` fills in the index. -/
def proposal (self : Fin N) (n : RaftNode N K V) (key : K) (value : V) (op : OpType) (ts : ℤ) :
    Entry N K V where
  index := n.log.nextIndex
  term := n.currentTerm
  key := key
  value := value
  op := op
  timestamp := ts
  originID := self
  vclock := .empty

/-- The appending half of `proposeAndWait`, up to its wait loop; returns the index to wait for.
Source: `raft.go` `proposeAndWait`, with the pause check of `Write` and `Delete`. -/
def propose (self : Fin N) (n : RaftNode N K V) (key : K) (value : V) (op : OpType) (ts : ℤ) :
    Except (RaftError N K) (RaftNode N K V × ℕ × List (Message N K V)) :=
  if n.state.isPaused then .error .paused
  else if n.role ≠ .leader then .error n.redirect
  else
    let appended := n.log.append (n.proposal self key value op ts)
    let n' := { n with
      log := appended.1
      matchIndex := Function.update n.matchIndex self appended.2 }
    .ok (n', appended.2, (peers self).flatMap (sendAppend self n'))

/-- Source: `raft.go` `Read`. -/
def read (n : RaftNode N K V) (key : K) : Except (RaftError N K) (KVEntry (Fin N) K V) :=
  if n.state.isPaused then .error .paused
  else if n.role ≠ .leader then .error n.redirect
  else match n.store.get key with
    | none => .error (.notFound key)
    | some e => .ok e

/-! ### One atomic step of a node -/

/-- Source: `raft.go` `HandleMessage`. -/
def handleMessage [DecidableEq K] (self : Fin N) (n : RaftNode N K V) (msg : Message N K V) :
    RaftNode N K V × List (Message N K V) :=
  if n.state.isPaused then (n, [])
  else match msg.body with
    | .voteRequest lastLogIndex lastLogTerm =>
      n.handleVoteRequest self msg.senderID msg.term lastLogIndex lastLogTerm
    | .voteResponse voteGranted => (n.handleVoteResponse self msg.term voteGranted, [])
    | .appendEntries prevLogIndex prevLogTerm entries leaderCommit =>
      n.handleAppendEntries self msg.senderID msg.term prevLogIndex prevLogTerm entries
        leaderCommit
    | .appendAck success conflictIndex =>
      (n.handleAppendAck self msg.senderID msg.term success conflictIndex, [])
    | .installSnap snapIdx snapTerm snapshot included =>
      n.handleInstallSnap self msg.senderID msg.term snapIdx snapTerm snapshot included

end RaftNode

end Replication.Raft
