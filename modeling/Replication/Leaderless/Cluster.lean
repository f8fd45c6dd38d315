import Replication.Leaderless.Node
import Replication.Library.Run

/-!
# Leaderless · Cluster: coordinators, calls and messages

A coordinator runs `Write`, `Delete` and `Read` as sequences of lock sections between which anything
can happen; a call is the state of such a sequence, and an action runs its next section or lets its
timer fire. Messages in flight can be delivered in any order, delayed or lost.

* `WriteCall.advance` — `coordinate`, `sloppyRound` and `collectHints`.
* `ReadCall.advance` — `Read`, `fetchFull` and `repairSync`.

Sends of one section belong to its step: a message in flight is a message sent. The request of
`fetchFull` has no target and is never delivered, so only its local branch and its timeout remain.
-/

namespace Replication.Leaderless

open Storage Node Clock Library
open HashRing (Hashing)

/-- Where a write is between its sections. -/
inductive WriteStage where
  | apply
  | send
  | await
  /-- In the ack loop of `sloppyRound`. -/
  | standIns
  /-- Returned, and `collectHints` drains acks. -/
  | drain
  /-- `collectHints` is about to buffer its hints. -/
  | hints
  | done
  deriving DecidableEq, Repr

/-- What `Write` or `Delete` returns. -/
inductive WriteResult where
  | ok
  /-- "write quorum not met: %d/%d acks (W=%d, %s)". -/
  | quorumNotMet (got : ℕ) (w : ℤ) (level : ConsistencyLevel)
  deriving DecidableEq, Repr

/-- A `Write` or `Delete` in progress. -/
structure WriteCall (I K V : Type) where
  node : I
  entry : KVEntry I K V
  replicas : List I
  /-- The replicas other than the coordinator. -/
  targets : List I
  /-- Whether the coordinator is a replica. -/
  selfIsReplica : Bool
  /-- The sequence number of the call. -/
  seqNo : ℕ
  acked : List I
  stage : WriteStage
  result : Option WriteResult

/-- Where a read is between its sections. -/
inductive ReadStage where
  | readLocal
  | send
  | await
  /-- Waiting for the full value of a digest read. -/
  | fetch
  | repair
  /-- In the ack loop of `repairSync`. -/
  | repairSync
  | done
  deriving DecidableEq, Repr

/-- What `Read` returns. -/
inductive ReadResult (I K V : Type) where
  /-- "read quorum not met: %d/%d responses for key %q". -/
  | quorumNotMet (collected : ℕ) (r : ℤ)
  /-- No response has the key: "key %q not found". -/
  | notFound
  /-- The newest version is a tombstone: "key %q not found". -/
  | deleted (best : KVEntry I K V)
  | found (best : KVEntry I K V)

/-- A `Read` in progress. -/
structure ReadCall (I K V : Type) where
  node : I
  key : K
  localEntry : Option (KVEntry I K V)
  /-- The number of remote responses required. -/
  remoteNeeded : ℤ
  targets : List I
  /-- The sequence number of the call. -/
  seqNo : ℕ
  /-- The responses, in the order of arrival. -/
  remoteResps : List (ReadResp I K V)
  best : Option (KVEntry I K V)
  /-- The responders with stale data. -/
  staleNodes : List I
  /-- The sequence number of a blocking repair. -/
  repairSeqNo : ℕ
  /-- The nodes that acknowledged it. -/
  acked : List I
  stage : ReadStage
  result : Option (ReadResult I K V)

/-- A call that a coordinator runs. -/
inductive Call (I K V : Type) where
  /-- `Write` or `Delete`. -/
  | write (c : WriteCall I K V)
  | read (c : ReadCall I K V)

/-- What lets a call go on: its next section, with a wall reading and the targets of a shuffle where
it needs them, or its timer. -/
inductive Event (I : Type) where
  | go (wallNanos : ℤ) (targets : List I)
  | timeout

/-- A ring on which the virtual nodes of two nodes alternate. -/
def alternatingTokens {K : Type} : Hashing Bool K where
  token n i := 2 * i + n.toNat
  point _ := 0

variable {I K V : Type} [LinearOrder I] [DecidableEq K] [Inhabited V] [DecidableEq V]

/-- A receive, if there is something to receive. -/
def Chan.pop {α : Type} (c : Chan α) : Option (α × Chan α) :=
  match c.buf with
  | [] => none
  | a :: buf => some (a, { c with buf := buf })

/-- Take an ack out of a channel. -/
def LeaderlessNode.popAck (n : LeaderlessNode I K V) (seqNo : ℕ) :
    Option (I × LeaderlessNode I K V) :=
  ((n.writeAcks seqNo).bind Chan.pop).map fun r =>
    (r.1, { n with writeAcks := Function.update n.writeAcks seqNo (some r.2) })

/-- Take a response out of a channel. -/
def LeaderlessNode.popResp (n : LeaderlessNode I K V) (seqNo : ℕ) :
    Option (ReadResp I K V × LeaderlessNode I K V) :=
  ((n.readResps seqNo).bind Chan.pop).map fun r =>
    (r.1, { n with readResps := Function.update n.readResps seqNo (some r.2) })

/-! ### Writes -/

namespace WriteCall

/-- A client operation that has just been stamped. -/
def start (node : I) (entry : KVEntry I K V) : WriteCall I K V where
  node := node
  entry := entry
  replicas := []
  targets := []
  selfIsReplica := false
  seqNo := 0
  acked := []
  stage := .apply
  result := none

variable (c : WriteCall I K V) (n : LeaderlessNode I K V)

/-- Return to the client; acks are collected in the background from here on. -/
def finish (met : Bool) : WriteCall I K V :=
  { c with
    stage := .drain
    result := some <|
      if met then .ok
      else .quorumNotMet (c.acked.length + if c.selfIsReplica then 1 else 0) n.qConfig.W
        n.consistencyLevel }

/-- The other replicas that have not acknowledged. -/
def unacked : List I := c.replicas.filter fun r => r ≠ n.id ∧ r ∉ c.acked

/-- The stand-ins that are asked, each with the replica it stands in for. -/
def standInsFor (H : Hashing I K) : List (I × I) :=
  (n.fallbackNodes H c.entry.key c.replicas ((c.unacked n).length + 2)).zip (c.unacked n)

/-- The end of the first ack loop, and the start of `sloppyRound` if the quorum is not met. -/
def leaveLoop (H : Hashing I K) :
    LeaderlessNode I K V × WriteCall I K V × List (Message I K V) :=
  let met := n.writeQuorumMet c.acked c.replicas c.selfIsReplica
  if met = true ∨ n.sloppy = false then (n, c.finish n met, [])
  else if c.unacked n = [] then (n, c.finish n true, [])
  else if c.standInsFor n H = [] then (n, c.finish n false, [])
  else
    (n, { c with stage := .standIns },
      (c.standInsFor n H).map fun p => .write n.id p.1 c.seqNo c.entry (some p.2))

/-- The next section of a write, or its timer. Source: `leaderless.go` `coordinate`, `sloppyRound`,
`collectHints`. -/
def advance (H : Hashing I K) (ev : Event I) :
    LeaderlessNode I K V × WriteCall I K V × List (Message I K V) :=
  match c.stage, ev with
  | .apply, .go t _ => (n.applyWrite c.entry t, { c with stage := .send }, [])
  | .send, .go _ _ =>
    let replicas := n.replicasFor H c.entry.key
    let targets := replicas.filter fun r => r ≠ n.id
    let seqNo := n.seqNo + 1
    ({ n with
        seqNo := seqNo
        writeAcks := Function.update n.writeAcks seqNo (some ⟨n.allNodes.length + 1, []⟩) },
      { c with
        replicas := replicas, targets := targets, selfIsReplica := n.id ∈ replicas
        seqNo := seqNo, stage := .await },
      targets.map fun t => .write n.id t seqNo c.entry none)
  | .await, .go _ _ =>
    if n.writeQuorumMet c.acked c.replicas c.selfIsReplica then c.leaveLoop n H
    else
      match n.popAck c.seqNo with
      | none => (n, c, [])
      | some (r, n) =>
        let c := { c with acked := c.acked.insert r }
        -- every preferred replica has responded
        if c.targets.length ≤ c.acked.length then c.leaveLoop n H else (n, c, [])
  | .await, .timeout => c.leaveLoop n H
  | .standIns, .go _ _ =>
    if n.writeQuorumMet c.acked c.replicas c.selfIsReplica then (n, c.finish n true, [])
    else
      match n.popAck c.seqNo with
      | none => (n, c, [])
      | some (r, n) => (n, { c with acked := c.acked.insert r }, [])
  | .standIns, .timeout =>
    (n, c.finish n (n.writeQuorumMet c.acked c.replicas c.selfIsReplica), [])
  | .drain, .go _ _ =>
    match n.popAck c.seqNo with
    | none => (n, c, [])
    | some (r, n) => (n, { c with acked := c.acked.insert r }, [])
  | .drain, .timeout =>
    ({ n with writeAcks := Function.update n.writeAcks c.seqNo none },
      { c with stage := .hints }, [])
  | .hints, .go _ _ =>
    ({ n with hints := n.hints ++
        (c.targets.filter fun t => t ∉ c.acked).map fun t => (t, c.entry) },
      { c with stage := .done }, [])
  | _, _ => (n, c, [])

end WriteCall

/-! ### Reads -/

/-- The newest of a list of versions, the first of equals. -/
def newest (responses : List (KVEntry I K V)) : Option (KVEntry I K V) :=
  match responses with
  | [] => none
  | e :: es => some (es.foldl (fun best r => if entryWins r best then r else best) e)

/-- Whether there is something to repair with: a value or a tombstone. -/
def hasContent (e : KVEntry I K V) : Bool := e.value ≠ default ∨ e.tombstone = true

namespace ReadCall

/-- A read that has just been accepted. -/
def start (node : I) (key : K) : ReadCall I K V where
  node := node
  key := key
  localEntry := none
  remoteNeeded := 0
  targets := []
  seqNo := 0
  remoteResps := []
  best := none
  staleNodes := []
  repairSeqNo := 0
  acked := []
  stage := .readLocal
  result := none

variable (c : ReadCall I K V) (n : LeaderlessNode I K V)

/-- The versions a read compares, its own first. -/
def responses : List (KVEntry I K V) :=
  c.localEntry.toList ++ c.remoteResps.filterMap ReadResp.entry

/-- The responders whose data is stale: they have nothing, another hash, or an older version. -/
def staleFor (best : KVEntry I K V) : List I :=
  (c.remoteResps.filter fun r =>
    match r.entry, r.hash with
    | none, _ => true
    | some _, some hash => hash ≠ entryHash best
    | some e, none => entryWins best e).map ReadResp.senderID

/-- Close the channel of the responses, and return to the client. -/
def finish (result : ReadResult I K V) :
    LeaderlessNode I K V × ReadCall I K V × List (Message I K V) :=
  ({ n with readResps := Function.update n.readResps c.seqNo none },
    { c with stage := .done, result := some result }, [])

/-- The answer of a read with a newest version. -/
def answer (best : KVEntry I K V) : ReadResult I K V :=
  if best.tombstone then .deleted best else .found best

/-- The end of the response loop: the quorum check and the newest version. -/
def leaveLoop : LeaderlessNode I K V × ReadCall I K V × List (Message I K V) :=
  let collected := 1 + c.remoteResps.length
  if (collected : ℤ) < n.qConfig.R then c.finish n (.quorumNotMet collected n.qConfig.R)
  else
    match newest c.responses with
    | none => c.finish n .notFound
    | some best =>
      let stage := if n.repairMode = .digest ∧ best.value = default ∧ best.tombstone = false then
        ReadStage.fetch else .repair
      (n, { c with best := some best, stage := stage }, [])

/-- Repair the copies of stale responders, and wait for that in sync mode. -/
def sendRepairs (best : KVEntry I K V) :
    LeaderlessNode I K V × ReadCall I K V × List (Message I K V) :=
  let staleNodes := c.staleFor best
  if staleNodes ≠ [] ∧ hasContent best = true then
    if n.repairMode = .sync then
      let seqNo := n.seqNo + 1
      ({ n with
          seqNo := seqNo
          writeAcks := Function.update n.writeAcks seqNo (some ⟨staleNodes.length + 1, []⟩) },
        { c with staleNodes := staleNodes, repairSeqNo := seqNo, stage := .repairSync },
        staleNodes.map fun id => .write n.id id seqNo best none)
    else
      let r := c.finish n (answer best)
      (r.1, r.2.1, staleNodes.map fun id => .readRepair n.id id best)
  else c.finish n (answer best)

/-- The coordinator's own copy is missing or older than the newest version. -/
def isBehind (best : KVEntry I K V) : Bool :=
  match c.localEntry with
  | none => true
  | some e => entryWins best e

/-- Repair the coordinator's own copy, then those of stale responders. -/
def repair (best : KVEntry I K V) (wallNanos : ℤ) :
    LeaderlessNode I K V × ReadCall I K V × List (Message I K V) :=
  c.sendRepairs
    (if c.isBehind best = true ∧ hasContent best = true then n.applyWrite best wallNanos else n)
    best

/-- The next section of a read, or its timer. Source: `leaderless.go` `Read`, `fetchFull`,
`repairSync`. -/
def advance (H : Hashing I K) (ev : Event I) :
    LeaderlessNode I K V × ReadCall I K V × List (Message I K V) :=
  match c.stage, ev with
  | .readLocal, .go _ _ => (n, { c with localEntry := n.store.getRaw c.key, stage := .send }, [])
  | .send, .go _ targets =>
    let remoteNeeded := max 0 (n.qConfig.R - if c.localEntry.isSome then 1 else 0)
    if n.readTargets H c.key remoteNeeded targets = false then (n, c, [])
    else
      let seqNo := n.seqNo + 1
      ({ n with
          seqNo := seqNo
          readResps := Function.update n.readResps seqNo (some ⟨targets.length + 1, []⟩) },
        { c with
          remoteNeeded := remoteNeeded, targets := targets
          seqNo := seqNo, stage := .await },
        targets.map fun t => .clientRead n.id t seqNo c.key (n.repairMode = .digest))
  | .await, .go _ _ =>
    if min c.remoteNeeded c.targets.length ≤ c.remoteResps.length then c.leaveLoop n
    else
      match n.popResp c.seqNo with
      | none => (n, c, [])
      | some (r, n) => (n, { c with remoteResps := c.remoteResps ++ [r] }, [])
  | .await, .timeout => c.leaveLoop n
  | .fetch, .go _ _ =>
    -- only the local branch of `fetchFull` gets an answer
    match c.best with
    | none => (n, c, [])
    | some best =>
      if best.nodeID = n.id then
        (n, { c with best := some ((n.store.getRaw c.key).getD best), stage := .repair }, [])
      else (n, c, [])
  | .fetch, .timeout =>
    match c.best with
    | none => (n, c, [])
    | some best => if best.nodeID = n.id then (n, c, []) else (n, { c with stage := .repair }, [])
  | .repair, .go t _ =>
    match c.best with
    | none => (n, c, [])
    | some best => c.repair n best t
  | .repairSync, ev =>
    match c.best with
    | none => (n, c, [])
    | some best =>
      let leave (n : LeaderlessNode I K V) (c : ReadCall I K V) :=
        c.finish { n with writeAcks := Function.update n.writeAcks c.repairSeqNo none }
          (answer best)
      match ev with
      | .timeout => leave n c
      | .go _ _ =>
        if c.staleNodes.length ≤ c.acked.length then leave n c
        else
          match n.popAck c.repairSeqNo with
          | none => (n, c, [])
          | some (r, n) => (n, { c with acked := c.acked.insert r }, [])
  | _, _ => (n, c, [])

end ReadCall

/-! ### The cluster -/

/-- Nodes, calls, and messages in flight. -/
structure Cluster (I K V : Type) where
  nodes : I → LeaderlessNode I K V
  /-- The calls, in the order in which they were accepted. -/
  calls : List (Call I K V)
  network : List (Message I K V)

/-- One step of a cluster. -/
inductive Action (I K V : Type) where
  | write (n : I) (key : K) (value : V) (wallNanos : ℤ)
  | delete (n : I) (key : K) (wallNanos : ℤ)
  | read (n : I) (key : K)
  /-- The `i`-th call goes on. -/
  | advance (i : ℕ) (ev : Event I)
  /-- The `j`-th message in flight is delivered. -/
  | deliver (j : ℕ) (wallNanos : ℤ)
  /-- The `j`-th message in flight is lost. -/
  | drop (j : ℕ)
  | deliverHints (n : I)
  | pause (n : I)
  | resume (n : I)
  | setClockSkew (n : I) (ms : ℤ)

namespace Cluster

/-- A cluster of nodes without calls and messages. -/
def init (nodes : I → LeaderlessNode I K V) : Cluster I K V := ⟨nodes, [], []⟩

/-- Replace a node. -/
def setNode (s : Cluster I K V) (n : I) (node : LeaderlessNode I K V) : Cluster I K V :=
  { s with nodes := Function.update s.nodes n node }

/-- A client operation, refused by a paused node. Source: `leaderless.go` `Write`, `Delete`. -/
def invoke (s : Cluster I K V) (n : I) (key : K) (value : V) (tombstone : Bool) (t : ℤ) :
    Cluster I K V :=
  if (s.nodes n).state.isPaused then s
  else
    let r := (s.nodes n).newEntry key value tombstone t
    { s.setNode n r.1 with calls := s.calls ++ [.write (.start n r.2)] }

/-- The cluster after a step; a step that is not possible changes nothing. -/
def step (H : Hashing I K) (s : Cluster I K V) : Action I K V → Cluster I K V
  | .write n key value t => s.invoke n key value false t
  | .delete n key t => s.invoke n key default true t
  | .read n key =>
    if (s.nodes n).state.isPaused then s
    else { s with calls := s.calls ++ [.read (.start n key)] }
  | .advance i ev =>
    match s.calls[i]? with
    | none => s
    | some (.write c) =>
      let r := c.advance (s.nodes c.node) H ev
      ⟨Function.update s.nodes c.node r.1, s.calls.set i (.write r.2.1), s.network ++ r.2.2⟩
    | some (.read c) =>
      let r := c.advance (s.nodes c.node) H ev
      ⟨Function.update s.nodes c.node r.1, s.calls.set i (.read r.2.1), s.network ++ r.2.2⟩
  | .deliver j t =>
    match s.network[j]? with
    | none => s
    | some msg =>
      let r := (s.nodes msg.target).handleMessage msg t
      ⟨Function.update s.nodes msg.target r.1, s.calls, s.network.eraseIdx j ++ r.2⟩
  | .drop j => { s with network := s.network.eraseIdx j }
  | .deliverHints n =>
    let r := (s.nodes n).deliverHints
    ⟨Function.update s.nodes n r.1, s.calls, s.network ++ r.2⟩
  | .pause n => s.setNode n { s.nodes n with state := .paused }
  | .resume n => s.setNode n { s.nodes n with state := .online }
  | .setClockSkew n ms => s.setNode n { s.nodes n with hlc := (s.nodes n).hlc.setSkewMillis ms }

end Cluster

end Replication.Leaderless
