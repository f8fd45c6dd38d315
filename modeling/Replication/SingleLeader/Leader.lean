import Mathlib.Data.Finset.Card
import Replication.SingleLeader.Follower

/-!
# Single leader · Leader: client calls as lock-protected steps

`internal/node/leader.go`. The leader takes any number of client calls at once. Each runs through
the same sections, every one under a lock of its own, and other calls and the message loop run in
between: the logical clock, the append to the log, the commit index, the store, the sequence
number, the registration of the ack channel, the broadcast and the wait for acknowledgements.

The hybrid clock is read by `HLCNow` under its own lock. Its readings are an input here, drawn in
the section of the logical clock. Metrics, events and the session guarantees are left out.
-/

set_option linter.unusedSectionVars false

namespace Replication.SingleLeader

open Storage Log Node Library

/-- Source: `leader.go` `ReplicationMode`. Any other string behaves as `async`. -/
inductive ReplicationMode where
  | async
  | sync
  | semiSync
  deriving DecidableEq, Repr

/-- Why `awaitReplication` fails. -/
inductive ReplicationError where
  /-- "sync replication incomplete: %d/%d followers acked within timeout". -/
  | syncIncomplete (received peers : ℕ)
  /-- "semi-sync replication timed out: no follower ack within 500ms". -/
  | semiSyncTimedOut
  deriving DecidableEq, Repr

/-- One write of a client call. -/
structure Op (K V : Type) where
  key : K
  /-- The value; a delete has the zero value. -/
  value : V
  op : OpType

/-- The writes a client can call. Source: `leader.go` `Write`, `Delete`, `WriteBatch`. -/
inductive ClientCall (K V : Type) where
  | write (key : K) (value : V)
  | delete (key : K)
  | writeBatch (pairs : List (K × V))

/-- The writes a call consists of, in order. -/
def ClientCall.ops {K V : Type} [Inhabited V] : ClientCall K V → List (Op K V)
  | .write key value => [⟨key, value, .set⟩]
  | .delete key => [⟨key, default, .delete⟩]
  | .writeBatch pairs => pairs.map fun p => ⟨p.1, p.2, .set⟩

/-- The sections of `awaitReplication`. -/
inductive Stage (I : Type) where
  /-- `n.ackChs[seqNo] = ackCh`. -/
  | register
  /-- `n.fabric.Broadcast(msg, peers)`. -/
  | broadcast
  /-- The select loop, with the peers it has heard from. -/
  | await (received : Finset I)
  /-- `delete(n.ackChs, seqNo)`. -/
  | unregister (received : Finset I)
  | returned (err : Option ReplicationError)

/-- The section a call executes next, with its local variables. -/
inductive Phase (I K V : Type) where
  /-- `HLCNow` and `n.clock++`. -/
  | stamp (op : Op K V)
  | append (op : Op K V) (ts : ℤ) (vc : VectorClock I)
  | commit (entry : LogEntry I K V)
  /-- `n.store.Set` or `n.store.Delete`. -/
  | store (entry : LogEntry I K V)
  /-- `n.GetPeers` in `Write`, before the sequence number. -/
  | getPeers
  /-- `n.seqNo++`. -/
  | nextSeq (peers : Option (List I))
  | getMode (seqNo : ℕ) (peers : Option (List I))
  /-- `n.GetPeers` in `Delete` and `WriteBatch`, as the last argument of `awaitReplication`. -/
  | getPeersLast (seqNo : ℕ) (mode : ReplicationMode)
  /-- Inside `awaitReplication`. -/
  | replicate (seqNo : ℕ) (peers : List I) (mode : ReplicationMode) (stage : Stage I)

/-- A client call in progress. -/
structure Call (I K V : Type) where
  call : ClientCall K V
  /-- The operations after the current one. -/
  todo : List (Op K V)
  /-- The entries of the message, in order: those appended and stored. -/
  entries : List (LogEntry I K V)
  phase : Phase I K V

/-- A buffered channel of acknowledging node ids. -/
structure AckCh (I : Type) where
  cap : ℕ
  /-- The buffered ids, first in first out. -/
  queue : List I

/-- The leader. Source: `leader.go` `SingleLeaderNode`. -/
structure SingleLeaderNode (I K V : Type) where
  id : I
  state : NodeState
  peers : List I
  mode : ReplicationMode
  store : Store I K V
  log : ReplicationLog I K V
  /-- The last sequence number given out. -/
  seqNo : ℕ
  clock : ℕ
  /-- The ack channels, by sequence number. -/
  ackChs : AList (fun _ : ℕ => AckCh I)

variable {I K V : Type} [DecidableEq I] [DecidableEq K] [Inhabited V]

/-- The call after its pause check and the test for an empty batch, or nothing if it is refused.
Source: `leader.go` `Write`, `Delete`, `WriteBatch`. -/
def ClientCall.start (l : SingleLeaderNode I K V) (call : ClientCall K V) : Option (Call I K V) :=
  if l.state.isPaused then none
  else match call.ops with
    | [] => none
    | op :: todo => some ⟨call, todo, [], .stamp op⟩

/-- A call starts with its first operation and no entry. -/
lemma ClientCall.exists_of_start {l : SingleLeaderNode I K V} {call : ClientCall K V}
    {c : Call I K V} (h : call.start l = some c) : ∃ op todo, c = ⟨call, todo, [], .stamp op⟩ := by
  unfold ClientCall.start at h
  split_ifs at h
  split at h
  · cases h
  · cases h
    exact ⟨_, _, rfl⟩

/-- Where a call goes on when all its entries are stored: `Write` reads the peers before it takes
its sequence number, the others last. -/
def ClientCall.afterStore : ClientCall K V → Phase I K V
  | .write _ _ => .getPeers
  | .delete _ => .nextSeq none
  | .writeBatch _ => .nextSeq none

/-- The log entry for an operation. -/
def Op.entry (op : Op K V) (id : I) (ts : ℤ) (vc : VectorClock I) (index : ℕ) :
    LogEntry I K V where
  index := index
  term := 0
  key := op.key
  value := op.value
  op := op.op
  timestamp := ts
  originID := id
  vclock := vc

/-- The store section: `Write` and `WriteBatch` set, `Delete` tombstones what is there. -/
def storeEntry (s : Store I K V) (e : LogEntry I K V) : Store I K V :=
  match e.op with
  | .set => s.set e.toKV
  | .delete => s.delete e.key e.originID e.timestamp e.vclock

/-- The messages of a broadcast. Source: `fabric.go` `Broadcast`, `leader.go` `Write`. -/
def Call.messages (c : Call I K V) (id : I) (seqNo : ℕ) (peers : List I) : List (Message I K V) :=
  peers.map fun p => ⟨id, p,
    .appendEntries seqNo c.entries ((c.entries.getLast?).elim 0 LogEntry.index)⟩

/-- What `awaitReplication` returns in a mode, from the peers it has heard from. -/
def replicationError (mode : ReplicationMode) (peers : List I) (received : Finset I) :
    Option ReplicationError :=
  match mode with
  | .async => none
  | .sync =>
    if received.card < peers.length then some (.syncIncomplete received.card peers.length)
    else none
  | .semiSync =>
    if peers.length = 0 ∨ received.card > 0 then none else some .semiSyncTimedOut

namespace SingleLeaderNode

/-- Source: `leader.go` `NewSingleLeaderNode`. -/
def new (id : I) (mode : ReplicationMode) (peers : List I) : SingleLeaderNode I K V where
  id := id
  state := .online
  peers := peers
  mode := mode
  store := .new
  log := .new
  seqNo := 0
  clock := 0
  ackChs := ∅

/-- Source: `base.go` `AddPeer`. -/
def addPeer (l : SingleLeaderNode I K V) (nodeID : I) : SingleLeaderNode I K V :=
  if nodeID ∈ l.peers then l else { l with peers := l.peers ++ [nodeID] }

/-- Only the peers change. -/
lemma addPeer_eq (l : SingleLeaderNode I K V) (nodeID : I) :
    l.addPeer nodeID = { l with peers := (l.addPeer nodeID).peers } := by
  unfold addPeer
  split_ifs <;> rfl

/-- Source: `base.go` `RemovePeer`. -/
def removePeer (l : SingleLeaderNode I K V) (nodeID : I) : SingleLeaderNode I K V :=
  { l with peers := l.peers.filter (· ≠ nodeID) }

/-- One section of `awaitReplication`. Source: `leader.go` `awaitReplication`. -/
def replicateStep (l : SingleLeaderNode I K V) (c : Call I K V) (seqNo : ℕ) (peers : List I)
    (mode : ReplicationMode) (stage : Stage I) :
    SingleLeaderNode I K V × Stage I × List (Message I K V) :=
  match stage with
  | .register =>
    match mode with
    -- the broadcast runs in a goroutine of its own; the fabric delays its messages anyway
    | .async => (l, .returned none, c.messages l.id seqNo peers)
    | _ => ({ l with ackChs := l.ackChs.insert seqNo ⟨peers.length, []⟩ }, .broadcast, [])
  | .broadcast => (l, .await ∅, c.messages l.id seqNo peers)
  | .await received =>
    if replicationError mode peers received = none then (l, .unregister received, [])
    else match l.ackChs.lookup seqNo with
      | some ⟨cap, senderID :: queue⟩ =>
        ({ l with ackChs := l.ackChs.insert seqNo ⟨cap, queue⟩ },
          .await (insert senderID received), [])
      | _ => (l, .await received, [])
  | .unregister received =>
    ({ l with ackChs := l.ackChs.erase seqNo },
      .returned (replicationError mode peers received), [])
  | .returned err => (l, .returned err, [])

/-- The next section of a call. `ts` is the hybrid-clock reading if it draws one. Source:
`leader.go` `Write`, `Delete`, `WriteBatch`. -/
def advance (l : SingleLeaderNode I K V) (c : Call I K V) (ts : ℤ) :
    SingleLeaderNode I K V × Call I K V × List (Message I K V) :=
  match c.phase with
  | .stamp op =>
    ({ l with clock := l.clock + 1 },
      { c with phase := .append op ts (.single l.id (l.clock + 1)) }, [])
  | .append op ts vc =>
    ({ l with log := (l.log.append (op.entry l.id ts vc 0)).1 },
      { c with phase := .commit (op.entry l.id ts vc l.log.nextIndex) }, [])
  | .commit e => ({ l with log := l.log.setCommitIndex e.index }, { c with phase := .store e }, [])
  | .store e =>
    ({ l with store := storeEntry l.store e },
      match c.todo with
      | op :: todo => ⟨c.call, todo, c.entries ++ [e], .stamp op⟩
      | [] => ⟨c.call, [], c.entries ++ [e], c.call.afterStore⟩, [])
  | .getPeers => (l, { c with phase := .nextSeq (some l.peers) }, [])
  | .nextSeq peers =>
    ({ l with seqNo := l.seqNo + 1 }, { c with phase := .getMode (l.seqNo + 1) peers }, [])
  | .getMode seqNo (some peers) =>
    (l, { c with phase := .replicate seqNo peers l.mode .register }, [])
  | .getMode seqNo none => (l, { c with phase := .getPeersLast seqNo l.mode }, [])
  | .getPeersLast seqNo mode =>
    (l, { c with phase := .replicate seqNo l.peers mode .register }, [])
  | .replicate seqNo peers mode stage =>
    ((l.replicateStep c seqNo peers mode stage).1,
      { c with
        phase := .replicate seqNo peers mode (l.replicateStep c seqNo peers mode stage).2.1 },
      (l.replicateStep c seqNo peers mode stage).2.2)

/-- Handle a message. An acknowledgement goes to the channel of its sequence number unless that is
full; a catch-up request is answered with the log from the index asked for. Source: `leader.go`
`HandleMessage`. -/
def handleMessage (l : SingleLeaderNode I K V) (msg : Message I K V) :
    SingleLeaderNode I K V × List (Message I K V) :=
  match msg.body with
  | .appendAck ackIndex =>
    match l.ackChs.lookup ackIndex with
    | none => (l, [])
    | some ch =>
      if ch.queue.length < ch.cap then
        ({ l with ackChs := l.ackChs.insert ackIndex ⟨ch.cap, ch.queue ++ [msg.senderID]⟩ },
          [])
      else (l, [])
  | .sync ackIndex =>
    if (l.log.getFrom ackIndex).length = 0 then (l, [])
    else (l, [⟨l.id, msg.senderID,
      .appendEntries 0 (l.log.getFrom ackIndex) l.log.lastIndex⟩])
  | _ => (l, [])

end SingleLeaderNode

/-- The timeout of a wait ends it with the acknowledgements there are. -/
def Call.expire (c : Call I K V) : Call I K V :=
  match c.phase with
  | .replicate seqNo peers mode (.await received) =>
    { c with phase := .replicate seqNo peers mode (.unregister received) }
  | _ => c

/-- The peers and the mode of a call that has returned, and its error. -/
def Call.result (c : Call I K V) : Option (List I × ReplicationMode × Option ReplicationError) :=
  match c.phase with
  | .replicate _ peers mode (.returned err) => some (peers, mode, err)
  | _ => none

end Replication.SingleLeader
