import Replication.Clock.HLC
import Replication.Conflict.Resolver
import Replication.HashRing.Ring
import Replication.Node.Base

/-!
# Leaderless · Node: replicas and their handlers

`internal/node/leaderless.go`, apart from the calls that a coordinator runs (see `Cluster`).

* `LeaderlessNode` — a replica: store, hybrid clock, ring, hints and the channels of its calls.
* `replicasFor`, `fallbackNodes`, `readTargets`, `writeQuorumMet` — placement and quorums.
* `handleMessage`, `deliverHints` — the message loop and the hint ticker.

`nil` values read `default`. A hash of an entry is modelled by what is hashed, so that equal hashes
mean equal contents. The hint buffers of all targets are one list of pairs.
-/

set_option linter.unusedSectionVars false

namespace Replication.Leaderless

open Storage Node Clock
open HashRing (Hashing firsts)

/-- Source: `quorum/calculator.go` `QuorumConfig`. -/
structure QuorumConfig where
  /-- The number of replicas of a key. -/
  N : ℤ
  W : ℤ
  R : ℤ
  deriving DecidableEq, Repr

/-- Source: `leaderless.go` `ReadRepairMode`. -/
inductive ReadRepairMode where
  | async
  | sync
  | digest
  deriving DecidableEq, Repr

/-- Source: `leaderless.go` `ConsistencyLevel`. -/
inductive ConsistencyLevel where
  | quorum
  | localQuorum
  | eachQuorum
  deriving DecidableEq, Repr

/-- What `entryHash` hashes: timestamp, node id, tombstone flag and value. -/
abbrev EntryHash (I V : Type) : Type := ℤ × I × Bool × V

/-- Source: `leaderless.go` `readResp`. -/
structure ReadResp (I K V : Type) where
  senderID : I
  /-- Its version, if it has the key. -/
  entry : Option (KVEntry I K V)
  hash : Option (EntryHash I V)

/-- A message between replicas. Source: `message.go`, the types a leaderless node uses. -/
inductive Message (I K V : Type) where
  /-- `MsgWrite`; a stand-in gets the replica it stands in for. -/
  | write (sender target : I) (seqNo : ℕ) (entry : KVEntry I K V) (originalTarget : Option I)
  /-- `MsgHintedHandoff`, without a sequence number. -/
  | hintedHandoff (sender target : I) (entry : KVEntry I K V)
  | writeAck (sender target : I) (seqNo : ℕ) (entry : KVEntry I K V)
  | clientRead (sender target : I) (seqNo : ℕ) (key : K) (digest : Bool)
  /-- `MsgSyncAck`; without an entry it is the answer `not_found`. -/
  | syncAck (sender target : I) (seqNo : ℕ) (key : K) (entry : Option (KVEntry I K V))
      (hash : Option (EntryHash I V))
  | readRepair (sender target : I) (entry : KVEntry I K V)

/-- The node that a message is sent to. -/
def Message.target {I K V : Type} : Message I K V → I
  | .write _ t _ _ _ => t
  | .hintedHandoff _ t _ => t
  | .writeAck _ t _ _ => t
  | .clientRead _ t _ _ _ => t
  | .syncAck _ t _ _ _ _ => t
  | .readRepair _ t _ => t

/-- A buffered channel. -/
structure Chan (α : Type) where
  cap : ℕ
  buf : List α

/-- A send that does not block: what does not fit is dropped. -/
def Chan.push {α : Type} (c : Chan α) (a : α) : Chan α :=
  if c.buf.length < c.cap then { c with buf := c.buf ++ [a] } else c

/-- A leaderless replica. Source: `leaderless.go` `LeaderlessNode`. -/
structure LeaderlessNode (I K V : Type) where
  id : I
  state : NodeState
  store : Store I K V
  hlc : HLC
  qConfig : QuorumConfig
  allNodes : List I
  ring : HashRing.Ring I
  /-- Buffered hints: target and entry. -/
  hints : List (I × KVEntry I K V)
  /-- The region of each node, empty if there is none. -/
  regions : I → String
  selfRegion : String
  repairMode : ReadRepairMode
  /-- The quorum semantics of writes. -/
  consistencyLevel : ConsistencyLevel
  /-- Whether stand-ins may help to meet a write quorum. -/
  sloppy : Bool
  seqNo : ℕ
  /-- The channels of writes that wait for acks. -/
  writeAcks : ℕ → Option (Chan I)
  /-- The channels of reads that wait for responses. -/
  readResps : ℕ → Option (Chan (ReadResp I K V))

variable {I K V : Type} [LinearOrder I] [DecidableEq K] [Inhabited V]

/-- The order of versions: the later timestamp, then the larger node id. Source: `leaderless.go`
`entryWins`. -/
def entryWins (a b : KVEntry I K V) : Bool :=
  if a.timestamp ≠ b.timestamp then b.timestamp < a.timestamp else b.nodeID < a.nodeID

/-- Source: `leaderless.go` `entryHash`. -/
def entryHash (e : KVEntry I K V) : EntryHash I V := (e.timestamp, e.nodeID, e.tombstone, e.value)

/-- The metadata of an entry, without its value and clock. -/
def metadata (e : KVEntry I K V) : KVEntry I K V :=
  { e with value := default, vclock := .empty }

/-- The least number that is a strict majority of the replicas in a region, at least one. Source:
`leaderless.go` `regionQuorum`. -/
def regionQuorum (regions : I → String) (replicas : List I) (region : String) : ℕ :=
  let count := (replicas.filter fun r => regions r = region).length
  if count = 0 then 1 else count / 2 + 1

/-- Source: `leaderless.go` `countInRegion`. -/
def countInRegion (regions : I → String) (acked : List I) (region : String) : ℕ :=
  (acked.filter fun r => regions r = region).length

/-- Source: `leaderless.go` `replicaRegions`. -/
def replicaRegions (regions : I → String) (replicas : List I) : List String :=
  firsts (replicas.map regions)

namespace LeaderlessNode

variable (n : LeaderlessNode I K V)

/-- Source: `leaderless.go` `NewLeaderlessNode`. -/
def new (H : Hashing I K) (id : I) (qConfig : QuorumConfig) : LeaderlessNode I K V where
  id := id
  state := .online
  store := .new
  hlc := .new
  qConfig := qConfig
  allNodes := [id]
  ring := (HashRing.Ring.new 128).add H id
  hints := []
  regions _ := ""
  selfRegion := ""
  repairMode := .async
  consistencyLevel := .quorum
  sloppy := true
  seqNo := 0
  writeAcks _ := none
  readResps _ := none

/-- Source: `leaderless.go` `SetAllNodes`. -/
def setAllNodes (H : Hashing I K) (nodes : List I) : LeaderlessNode I K V :=
  { n with allNodes := nodes, ring := HashRing.Ring.ofMembers H nodes }

/-- Source: `leaderless.go` `SetRegions`. -/
def setRegions (regions : I → String) : LeaderlessNode I K V :=
  { n with regions := regions, selfRegion := regions n.id }

/-- Source: `leaderless.go` `UpdateQuorum`. -/
def updateQuorum (q : QuorumConfig) : LeaderlessNode I K V := { n with qConfig := q }

/-! ### The store -/

/-- Merge the clock, and keep the winning version. Source: `leaderless.go` `applyWrite`. -/
def applyWrite (entry : KVEntry I K V) (wallNanos : ℤ) : LeaderlessNode I K V :=
  let n := { n with hlc := (n.hlc.update wallNanos entry.timestamp).1 }
  match n.store.getRaw entry.key with
  | none => { n with store := n.store.set entry }
  | some existing => if entryWins entry existing then { n with store := n.store.set entry } else n

/-- The entry of a client operation. Source: `leaderless.go` `Write`, `Delete`. -/
def newEntry (key : K) (value : V) (tombstone : Bool) (wallNanos : ℤ) :
    LeaderlessNode I K V × KVEntry I K V :=
  ({ n with hlc := (n.hlc.now wallNanos).1 },
    { key := key, value := value, vclock := VectorClock.empty.increment n.id,
      timestamp := (n.hlc.now wallNanos).2, nodeID := n.id, tombstone := tombstone, version := 0 })

/-! ### Placement and quorums -/

/-- The replicas of a key: its preference list, or the whole membership if that is empty. Source:
`leaderless.go` `replicasFor`. -/
def replicasFor (H : Hashing I K) (key : K) : List I :=
  match n.ring.preferenceList H key n.qConfig.N with
  | [] => n.allNodes
  | pl => pl

/-- The nodes just past the preference list. Source: `leaderless.go` `fallbackNodes`. -/
def fallbackNodes (H : Hashing I K) (key : K) (replicas : List I) (extra : ℕ) : List I :=
  (n.ring.preferenceList H key (n.qConfig.N + extra)).filter fun id => id ∉ replicas ∧ id ≠ n.id

/-- Source: `leaderless.go` `getOtherNodes`. -/
def getOtherNodes : List I := n.allNodes.filter fun id => id ≠ n.id

/-- The nodes a read chooses from: the other replicas, and the rest of the membership if they are
too few. -/
def readCandidates (H : Hashing I K) (key : K) (count : ℤ) : List I :=
  let others := (n.replicasFor H key).filter fun r => r ≠ n.id
  if (others.length : ℤ) < count then
    others ++ firsts (n.getOtherNodes.filter fun id => id ∉ others)
  else others

/-- Whether `targets` is what `readTargets` may return: all candidates if there are no more than
asked for, or else that many of them, in the order of a shuffle. Source: `leaderless.go`
`readTargets`. -/
def readTargets (H : Hashing I K) (key : K) (count : ℤ) (targets : List I) : Bool :=
  let others := n.readCandidates H key count
  if (others.length : ℤ) ≤ count then targets = others
  else (targets.length : ℤ) = count ∧ targets.Subperm others

/-- Whether the acks, and the node itself if it is a replica, satisfy the consistency level. Source:
`leaderless.go` `writeQuorumMet`. -/
def writeQuorumMet (acked replicas : List I) (selfIsReplica : Bool) : Bool :=
  let total := if selfIsReplica then acked.insert n.id else acked
  match n.consistencyLevel with
  | .localQuorum =>
    regionQuorum n.regions replicas n.selfRegion ≤ countInRegion n.regions total n.selfRegion
  | .eachQuorum =>
    (replicaRegions n.regions replicas).all fun region =>
      regionQuorum n.regions replicas region ≤ countInRegion n.regions total region
  | .quorum => n.qConfig.W ≤ total.length

/-! ### Handlers -/

/-- Pass an ack on to the call that waits for it. -/
def pushAck (seqNo : ℕ) (senderID : I) : LeaderlessNode I K V :=
  match n.writeAcks seqNo with
  | none => n
  | some ch => { n with writeAcks := Function.update n.writeAcks seqNo (some (ch.push senderID)) }

/-- Pass a response on to the call that waits for it. -/
def pushResp (seqNo : ℕ) (resp : ReadResp I K V) : LeaderlessNode I K V :=
  match n.readResps seqNo with
  | none => n
  | some ch => { n with readResps := Function.update n.readResps seqNo (some (ch.push resp)) }

/-- The answer to a read request: the version with tombstones, only its metadata and hash for a
digest read. -/
def readReply (sender : I) (seqNo : ℕ) (key : K) (digest : Bool) : Message I K V :=
  match n.store.getRaw key with
  | none => .syncAck n.id sender seqNo key none none
  | some entry =>
    if digest then .syncAck n.id sender seqNo key (some (metadata entry)) (some (entryHash entry))
    else .syncAck n.id sender seqNo key (some entry) none

/-- Source: `leaderless.go` `HandleMessage`. -/
def handleMessage (msg : Message I K V) (wallNanos : ℤ) :
    LeaderlessNode I K V × List (Message I K V) :=
  if n.state.isPaused then (n, [])
  else
    match msg with
    | .write sender _ seqNo entry originalTarget =>
      let n' := n.applyWrite entry wallNanos
      -- a stand-in holds a hint for the replica it stands in for
      let n' :=
        match originalTarget with
        | none => n'
        | some t => if t = n.id then n' else { n' with hints := n'.hints ++ [(t, entry)] }
      (n', [.writeAck n.id sender seqNo entry])
    | .hintedHandoff sender _ entry =>
      (n.applyWrite entry wallNanos, [.writeAck n.id sender 0 entry])
    | .writeAck sender _ seqNo _ => (n.pushAck seqNo sender, [])
    | .clientRead sender _ seqNo key digest => (n, [n.readReply sender seqNo key digest])
    | .syncAck sender _ seqNo _ entry hash => (n.pushResp seqNo ⟨sender, entry, hash⟩, [])
    | .readRepair _ _ entry => (n.applyWrite entry wallNanos, [])

/-- Send every hint to its target, and forget it. Source: `leaderless.go` `deliverHints`. -/
def deliverHints : LeaderlessNode I K V × List (Message I K V) :=
  ({ n with hints := [] }, n.hints.map fun h => .hintedHandoff n.id h.1 h.2)

end LeaderlessNode

/-! ### The last-write-wins store -/

/-- **A version wins iff its stamp is larger.** -/
theorem entryWins_iff {a b : KVEntry I K V} : entryWins a b = true ↔ b.stamp < a.stamp := by
  rw [entryWins, KVEntry.stamp_lt_iff]
  split_ifs with h
  · rw [decide_eq_true_eq]
    constructor
    · exact .inl
    · rintro (hlt | ⟨heq, -⟩)
      · exact hlt
      · exact absurd heq.symm h
  · rw [not_not] at h
    rw [decide_eq_true_eq, h]
    constructor
    · exact fun hlt => .inr ⟨rfl, hlt⟩
    · rintro (hlt | ⟨-, hlt⟩)
      · exact absurd hlt (lt_irrefl _)
      · exact hlt

/-- The winning one of a stored version and a new one. -/
def winner (stored : Option (KVEntry I K V)) (e : KVEntry I K V) : KVEntry I K V :=
  match stored with
  | none => e
  | some x => if x.stamp < e.stamp then e else x

section applyWrite

variable (n : LeaderlessNode I K V) (e : KVEntry I K V) (t : ℤ)

/-- **What a store holds after an apply**: the winning version of the key, and the other keys as
they were. -/
theorem applyWrite_contents : (n.applyWrite e t).store.contents =
    Function.update n.store.contents e.key (some (winner (n.store.data e.key) e).content) := by
  unfold LeaderlessNode.applyWrite winner
  dsimp only [Store.getRaw]
  cases hex : n.store.data e.key with
  | none => exact contents_set n.store e
  | some x =>
    dsimp only
    by_cases hwin : entryWins e x = true
    · rw [if_pos hwin, if_pos (entryWins_iff.mp hwin)]
      exact contents_set n.store e
    rw [if_neg hwin, if_neg fun h => hwin (entryWins_iff.mpr h)]
    refine (Function.update_eq_self_iff.mpr ?_).symm
    rw [Store.contents_eq_map, hex]
    rfl

/-- Only the clock and the store change. -/
lemma applyWrite_frame : n.applyWrite e t =
    { n with hlc := (n.hlc.update t e.timestamp).1, store := (n.applyWrite e t).store } := by
  dsimp only [LeaderlessNode.applyWrite]
  split
  · rfl
  · split_ifs <;> rfl

end applyWrite

/-! ### The replicas of a key -/

/-- **A key has at most `N` replicas**, without repetitions. -/
theorem replicasFor_spec {n : LeaderlessNode I K V} {H : Hashing I K}
    (hring : n.ring = HashRing.Ring.ofMembers H n.allNodes) (hN : 1 ≤ n.qConfig.N) (key : K) :
    (n.replicasFor H key).Nodup ∧ ((n.replicasFor H key).length : ℤ) ≤ n.qConfig.N := by
  have hvalid := HashRing.Ring.valid_ofMembers H n.allNodes
  have hnodup := HashRing.Ring.nodup_preferenceList hvalid H key n.qConfig.N
  have hlen := HashRing.Ring.length_preferenceList hvalid H key n.qConfig.N
  unfold LeaderlessNode.replicasFor
  rw [hring]
  split
  case h_1 hnil =>
    -- an empty preference list means an empty membership
    rw [hnil, List.length_nil] at hlen
    have hcard : (HashRing.Ring.ofMembers H n.allNodes).nodes.card = 0 := by omega
    have hempty : n.allNodes = [] := by
      refine List.eq_nil_iff_forall_not_mem.mpr fun a ha => ?_
      rw [← HashRing.Ring.mem_nodes_ofMembers H, Finset.card_eq_zero.mp hcard] at ha
      exact absurd ha (Finset.notMem_empty a)
    rw [hempty]
    exact ⟨List.nodup_nil, by rw [List.length_nil]; omega⟩
  case h_2 => exact ⟨hnodup, by omega⟩

/-- A preference list is not empty if there are members. -/
lemma replicasFor_eq_preferenceList {n : LeaderlessNode I K V} {H : Hashing I K}
    (hring : n.ring = HashRing.Ring.ofMembers H n.allNodes) (hN : 1 ≤ n.qConfig.N)
    (hne : n.allNodes ≠ []) (key : K) :
    n.replicasFor H key = n.ring.preferenceList H key n.qConfig.N := by
  unfold LeaderlessNode.replicasFor
  split
  case h_1 hnil =>
    obtain ⟨a, ha⟩ := List.exists_mem_of_ne_nil _ hne
    have hcard : 0 < n.ring.nodes.card := by
      rw [hring]
      exact Finset.card_pos.mpr ⟨a, (HashRing.Ring.mem_nodes_ofMembers H _ a).mpr ha⟩
    have hlen := HashRing.Ring.length_preferenceList
      (hring ▸ HashRing.Ring.valid_ofMembers H n.allNodes) H key n.qConfig.N
    rw [hnil, List.length_nil] at hlen
    omega
  case h_2 => rfl

end Replication.Leaderless
